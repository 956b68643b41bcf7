import Lox.Resolution.Context
import Lox.Store

/-!
# Scopes at run time and in the text

What the operations on scopes do to parents and bindings, and when a chain of scopes up to the
globals is an instance of the scopes around a piece of code.
-/

namespace Lox

theorem Bindings.lookup_cons_of_ne {α : Type} {name other : Bytes} (h : other ≠ name) (a : α)
    (bindings : Bindings α) : List.lookup other ((name, a) :: bindings) = bindings.lookup other := by
  rw [List.lookup_cons, beq_eq_false_iff_ne.mpr h]

theorem Bindings.lookup_insert {α : Type} (name : Bytes) (a : α) (bindings : Bindings α)
    (other : Bytes) :
    (Bindings.insert name a bindings).lookup other =
      if other = name then some a else bindings.lookup other := by
  induction bindings with
  | nil =>
      by_cases heq : other = name
      · simp [insert, heq]
      · rw [insert, lookup_cons_of_ne heq, if_neg heq]
  | cons binding bindings ih =>
      obtain ⟨first, b⟩ := binding
      by_cases hfirst : first = name
      · subst hfirst
        by_cases heq : other = first
        · simp [insert, heq]
        · simp only [insert, ↓reduceIte, lookup_cons_of_ne heq, heq]
      · by_cases hother : other = first
        · subst hother
          simp [insert, hfirst]
        · simp only [insert, hfirst, ↓reduceIte, lookup_cons_of_ne hother, ih]

namespace Scopes

variable (scopes : Scopes)

@[simp]
theorem next_define (id : ScopeId) (name : Bytes) (value : Value) :
    (scopes.define id name value).next = scopes.next :=
  Array.size_modify

@[simp]
theorem next_push (parent : Option ScopeId) (bindings : Bindings Value) :
    (scopes.push parent bindings).next = scopes.next + 1 :=
  Array.size_push _

@[simp]
theorem parent?_define (id : ScopeId) (name : Bytes) (value : Value) (other : ScopeId) :
    (scopes.define id name value).parent? other = scopes.parent? other := by
  unfold parent? define
  rw [Array.getElem?_modify]
  by_cases heq : id = other
  · rw [if_pos heq]
    cases scopes.all[other]? <;> rfl
  · rw [if_neg heq]

theorem bound?_define (id : ScopeId) (name : Bytes) (value : Value) (other : ScopeId)
    (used : Bytes) :
    (scopes.define id name value).bound? other used =
      if other = id ∧ used = name ∧ id < scopes.next then some value
      else scopes.bound? other used := by
  unfold bound? define next
  rw [Array.getElem?_modify]
  by_cases hid : id = other
  · subst hid
    by_cases hlt : id < scopes.all.size
    · simp only [hlt, getElem?_pos, Option.map_some, Bindings.lookup_insert, true_and, and_true,
        ↓reduceIte]
    · simp [hlt]
  · simp [hid, Ne.symm hid]

theorem isSome_bound?_define {id : ScopeId} (h : id < scopes.next) (name : Bytes) (value : Value) :
    ((scopes.define id name value).bound? id name).isSome := by
  rw [bound?_define, if_pos ⟨rfl, rfl, h⟩]
  rfl

theorem parent?_push (parent : Option ScopeId) (bindings : Bindings Value) (other : ScopeId) :
    (scopes.push parent bindings).parent? other =
      if other = scopes.next then parent else scopes.parent? other := by
  unfold parent? push next
  rw [Array.getElem?_push]
  by_cases heq : other = scopes.all.size <;> simp [heq]

theorem bound?_push (parent : Option ScopeId) (bindings : Bindings Value) (other : ScopeId)
    (used : Bytes) :
    (scopes.push parent bindings).bound? other used =
      if other = scopes.next then bindings.lookup used else scopes.bound? other used := by
  unfold bound? push next
  rw [Array.getElem?_push]
  by_cases heq : other = scopes.all.size <;> simp [heq]

theorem lt_next_of_parent? {id parent : ScopeId} (h : scopes.parent? id = some parent) :
    id < scopes.next := by
  unfold parent? at h
  by_cases hlt : id < scopes.all.size
  · exact hlt
  · simp [hlt] at h

theorem lt_next_of_bound? {id : ScopeId} {name : Bytes} {value : Value}
    (h : scopes.bound? id name = some value) : id < scopes.next := by
  unfold bound? at h
  by_cases hlt : id < scopes.all.size
  · exact hlt
  · simp [hlt] at h

@[simp]
theorem ancestor?_zero (id : ScopeId) : scopes.ancestor? id 0 = some id := rfl

theorem ancestor?_succ {id parent : ScopeId} (h : scopes.parent? id = some parent) (d : Nat) :
    scopes.ancestor? id (d + 1) = scopes.ancestor? parent d := by
  unfold ancestor?
  rw [climb, h]

theorem ancestor?_succ_of_outermost {id : ScopeId} (h : scopes.parent? id = none) (d : Nat) :
    scopes.ancestor? id (d + 1) = none := by
  unfold ancestor?
  rw [climb, h]
  cases d <;> rfl

theorem get?_of_outermost {id : ScopeId} (h : scopes.parent? id = none) (name : Bytes) :
    scopes.get? id name = scopes.bound? id name := by
  unfold get?
  rw [holder?]
  cases hbound : scopes.bound? id name with
  | some v => simp [hbound]
  | none => simp [h]

theorem holder?_of_outermost {id : ScopeId} (h : scopes.parent? id = none) (name : Bytes) :
    scopes.holder? id name = if (scopes.bound? id name).isSome then some id else none := by
  rw [holder?]
  cases hbound : scopes.bound? id name with
  | some v => simp
  | none => simp [h]

/-- There is nothing above the globals, since a parent is older. -/
theorem holder?_globals_eq (n : Bytes) :
    scopes.holder? State.globals n =
      if (scopes.bound? State.globals n).isSome then some State.globals else none := by
  rw [holder?]
  cases hbound : scopes.bound? State.globals n with
  | some v => simp
  | none =>
      cases hparent : scopes.parent? State.globals with
      | none => simp
      | some parent => simp [State.globals]

theorem assign?_eq_map (id : ScopeId) (name : Bytes) (v : Value) :
    scopes.assign? id name v =
      (scopes.holder? id name).map fun holder => scopes.define holder name v := by
  unfold assign?
  cases scopes.holder? id name <;> rfl

theorem exists_of_assign? {id : ScopeId} {name : Bytes} {v : Value} {after : Scopes}
    (h : scopes.assign? id name v = some after) :
    ∃ holder, after = scopes.define holder name v := by
  rw [assign?_eq_map] at h
  obtain ⟨holder, -, rfl⟩ := Option.map_eq_some_iff.mp h
  exact ⟨holder, rfl⟩

theorem assignAt?_eq_map (id : ScopeId) (distance : Nat) (name : Bytes) (v : Value) :
    scopes.assignAt? id distance name v =
      (scopes.ancestor? id distance).map fun scope => scopes.define scope name v := by
  unfold assignAt?
  cases scopes.ancestor? id distance <;> rfl

/-- Scopes are created and bind more and more names; parents stay. -/
structure Grows (before after : Scopes) : Prop where
  next : before.next ≤ after.next
  parent : ∀ id < before.next, after.parent? id = before.parent? id
  bound : ∀ id name, (before.bound? id name).isSome → (after.bound? id name).isSome

variable {scopes}

theorem Grows.refl (scopes : Scopes) : Grows scopes scopes :=
  ⟨Nat.le_refl _, fun _ _ => rfl, fun _ _ h => h⟩

theorem Grows.trans {a b c : Scopes} (h : Grows a b) (h' : Grows b c) : Grows a c where
  next := Nat.le_trans h.next h'.next
  parent id hid := (h'.parent id (Nat.lt_of_lt_of_le hid h.next)).trans (h.parent id hid)
  bound id name hbound := h'.bound id name (h.bound id name hbound)

theorem Grows.parent?_eq_some {a b : Scopes} (h : Grows a b) {id parent : ScopeId}
    (hparent : a.parent? id = some parent) : b.parent? id = some parent :=
  (h.parent id (a.lt_next_of_parent? hparent)).trans hparent

theorem grows_define (scopes : Scopes) (id : ScopeId) (name : Bytes) (value : Value) :
    Grows scopes (scopes.define id name value) := by
  refine ⟨Nat.le_of_eq (scopes.next_define id name value).symm, fun other _ => by simp, ?_⟩
  intro other used hbound
  rw [bound?_define]
  split
  · rfl
  · exact hbound

theorem grows_push (scopes : Scopes) (parent : Option ScopeId) (bindings : Bindings Value) :
    Grows scopes (scopes.push parent bindings) := by
  refine ⟨by simp, fun other hother => ?_, fun other used hbound => ?_⟩
  · rw [parent?_push, if_neg (Nat.ne_of_lt hother)]
  · obtain ⟨value, hvalue⟩ := Option.isSome_iff_exists.mp hbound
    rw [bound?_push, if_neg (Nat.ne_of_lt (scopes.lt_next_of_bound? hvalue))]
    exact hbound

theorem holder?_of_bound? {id : ScopeId} {n : Bytes}
    (h : (scopes.bound? id n).isSome) : scopes.holder? id n = some id := by
  obtain ⟨v, hv⟩ := Option.isSome_iff_exists.mp h
  rw [holder?, hv]

end Scopes

/-! ### Instances of the scopes in the text -/

open Resolution

/-- The scopes from `id` up to the globals, and without them, are instances of the frames: there is
one for each, and it binds every name that can be read. -/
def Matches (scopes : Scopes) : ScopeId → List Frame → Prop
  | id, [] => id = State.globals
  | id, frame :: outer =>
      id ≠ State.globals ∧
      (∀ name, frame.lookup name = some true → (scopes.bound? id name).isSome) ∧
      ∃ parent, scopes.parent? id = some parent ∧ Matches scopes parent outer

/-- The scopes from `id` up, as many as there are frames. -/
def Scopes.instances (scopes : Scopes) : ScopeId → List Frame → List ScopeId
  | _, [] => []
  | id, _ :: outer =>
      id :: match scopes.parent? id with
        | some parent => scopes.instances parent outer
        | none => []

theorem Scopes.instances_congr (scopes : Scopes) (id : ScopeId) {frames frames' : List Frame}
    (h : frames.length = frames'.length) :
    scopes.instances id frames = scopes.instances id frames' := by
  induction frames generalizing id frames' with
  | nil => simp [List.length_eq_zero_iff.mp h.symm]
  | cons frame outer ih =>
      cases frames' with
      | nil => cases h
      | cons frame' outer' =>
          simp only [instances]
          cases scopes.parent? id with
          | none => rfl
          | some parent => simp only [ih parent (Nat.succ.inj h)]

theorem Matches.grows {before after : Scopes} (hgrows : before.Grows after) {id : ScopeId}
    {frames : List Frame} (h : Matches before id frames) : Matches after id frames := by
  induction frames generalizing id with
  | nil => exact h
  | cons frame outer ih =>
      obtain ⟨hid, hbound, parent, hparent, houter⟩ := h
      exact ⟨hid, fun name hname => hgrows.bound _ _ (hbound name hname), parent,
        hgrows.parent?_eq_some hparent, ih houter⟩

theorem Matches.lt_next {scopes : Scopes} {id : ScopeId} {frames : List Frame}
    (h : Matches scopes id frames) (hnonempty : 0 < scopes.next) : id < scopes.next := by
  cases frames with
  | nil =>
      rw [show id = State.globals from h]
      exact hnonempty
  | cons frame outer =>
      obtain ⟨-, -, parent, hparent, -⟩ := h
      exact scopes.lt_next_of_parent? hparent

theorem Matches.ancestor {scopes : Scopes} {id : ScopeId} {frames : List Frame}
    (h : Matches scopes id frames) {d : Nat} (hd : d < frames.length) :
    ∃ scope, scopes.ancestor? id d = some scope ∧ scope ≠ State.globals ∧
      Matches scopes scope (frames.drop d) := by
  induction frames generalizing id d with
  | nil => simp at hd
  | cons frame outer ih =>
      cases d with
      | zero => exact ⟨id, rfl, h.1, h⟩
      | succ d =>
          obtain ⟨-, -, parent, hparent, houter⟩ := h
          obtain ⟨scope, hscope, hne, hmatches⟩ := ih houter (Nat.lt_of_succ_lt_succ hd)
          exact ⟨scope, (scopes.ancestor?_succ hparent d).trans hscope, hne, hmatches⟩

/-- Scopes that grow keep the walk up an instance as it is. -/
theorem Matches.ancestor?_grows {before after : Scopes} (hgrows : before.Grows after)
    {id : ScopeId} {frames : List Frame} (h : Matches before id frames) {d : Nat}
    (hd : d < frames.length) : after.ancestor? id d = before.ancestor? id d := by
  induction frames generalizing id d with
  | nil => simp at hd
  | cons frame outer ih =>
      cases d with
      | zero => rfl
      | succ d =>
          obtain ⟨-, -, parent, hparent, houter⟩ := h
          rw [before.ancestor?_succ hparent, after.ancestor?_succ (hgrows.parent?_eq_some hparent)]
          exact ih houter (Nat.lt_of_succ_lt_succ hd)

theorem Matches.push {scopes : Scopes} {parent : ScopeId} {outer : List Frame}
    (h : Matches scopes parent outer) (hnext : 0 < scopes.next) {frame : Frame}
    {bindings : Bindings Value}
    (hframe : ∀ name, frame.lookup name = some true → (bindings.lookup name).isSome) :
    Matches (scopes.push (some parent) bindings) scopes.next (frame :: outer) := by
  refine ⟨Nat.ne_of_gt hnext, fun name hname => ?_, parent, ?_, ?_⟩
  · rw [Scopes.bound?_push, if_pos rfl]
    exact hframe name hname
  · rw [Scopes.parent?_push, if_pos rfl]
  · exact h.grows (Scopes.grows_push scopes _ _)

theorem Matches.instances_grows {before after : Scopes} (hgrows : before.Grows after) {id : ScopeId}
    {frames : List Frame} (h : Matches before id frames) :
    after.instances id frames = before.instances id frames := by
  induction frames generalizing id with
  | nil => rfl
  | cons frame outer ih =>
      obtain ⟨-, -, parent, hparent, houter⟩ := h
      simp only [Scopes.instances, hparent, hgrows.parent?_eq_some hparent, ih houter]

theorem Matches.instances_push {scopes : Scopes} {parent : ScopeId} {outer : List Frame}
    (h : Matches scopes parent outer) (frame : Frame) (bindings : Bindings Value) :
    (scopes.push (some parent) bindings).instances scopes.next (frame :: outer) =
      scopes.next :: scopes.instances parent outer := by
  have hparent : (scopes.push (some parent) bindings).parent? scopes.next = some parent := by
    rw [Scopes.parent?_push, if_pos rfl]
  simp only [Scopes.instances, hparent, h.instances_grows (Scopes.grows_push scopes _ _)]

theorem Matches.headD_instances {scopes : Scopes} {id : ScopeId} {frames : List Frame}
    (h : Matches scopes id frames) : (scopes.instances id frames).headD State.globals = id := by
  cases frames with
  | nil => exact Eq.symm h
  | cons frame outer => rfl

theorem Matches.getElem?_instances {scopes : Scopes} {id : ScopeId} {frames : List Frame}
    (h : Matches scopes id frames) {d : Nat} (hd : d < frames.length) :
    (scopes.instances id frames)[d]? = scopes.ancestor? id d := by
  induction frames generalizing id d with
  | nil => simp at hd
  | cons frame outer ih =>
      obtain ⟨-, -, parent, hparent, houter⟩ := h
      cases d with
      | zero => rfl
      | succ d =>
          simp only [Scopes.instances, hparent, List.getElem?_cons_succ,
            scopes.ancestor?_succ hparent]
          exact ih houter (Nat.lt_of_succ_lt_succ hd)

theorem Matches.define {scopes : Scopes} {id : ScopeId} {ctx : Context}
    (h : Matches scopes id ctx.scopes) (name : Token) (value : Value) :
    Matches (scopes.define id name.lexeme value) id (ctx.define name).scopes := by
  have hgrown := h.grows (Scopes.grows_define scopes id name.lexeme value)
  unfold Context.define Context.mark
  cases hscopes : ctx.scopes with
  | nil => simpa [hscopes] using hgrown
  | cons frame outer =>
      rw [hscopes] at hgrown h
      obtain ⟨-, -, parent, hparent, -⟩ := h
      obtain ⟨hid, hbound, houter⟩ := hgrown
      refine ⟨hid, fun used hused => ?_, houter⟩
      rw [List.lookup_cons] at hused
      by_cases heq : used = name.lexeme
      · rw [Scopes.bound?_define, if_pos ⟨rfl, heq, scopes.lt_next_of_parent? hparent⟩]
        rfl
      · rw [beq_eq_false_iff_ne.mpr heq] at hused
        exact hbound used hused

end Lox
