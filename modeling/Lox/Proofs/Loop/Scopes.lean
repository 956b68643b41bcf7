import Mathlib.Logic.Function.Basic
import Lox.Proofs.Store.Scopes

/-!
# Scopes with spare ones between them

Two stores of scopes. The second one holds all scopes of the first one, at other places, and besides
them spare scopes that bind nothing. A chain of scopes may pass through spare ones. In the text there
is an empty frame for each of them, so what a name is bound to is found on both chains, each at its
own distance.
-/

namespace Lox

open Resolution

/-- Where each scope of one store stands in the other one. -/
abbrev Placement := ScopeId → ScopeId

/-- Each scope stands in its own place. -/
def Placement.same : Placement :=
  fun id => id

namespace Scopes

/-- The second store is the first one with spare scopes. -/
structure Padded (φ : Placement) (scopes scopes' : Scopes) : Prop where
  nonempty : 0 < scopes.next
  globals : φ State.globals = State.globals
  inside : ∀ id < scopes.next, φ id < scopes'.next
  apart : ∀ a < scopes.next, ∀ b < scopes.next, φ a = φ b → a = b
  bound : ∀ id < scopes.next, ∀ n, scopes'.bound? (φ id) n = scopes.bound? id n
  spare : ∀ id, (∀ a < scopes.next, φ a ≠ id) → ∀ n, scopes'.bound? id n = none

/-- Both stores have grown; what is new in the first one is new in the second one. -/
structure Onward (φ : Placement) (scopes scopes' : Scopes) (φ₁ : Placement)
    (scopes₁ scopes₁' : Scopes) : Prop where
  grows : scopes.Grows scopes₁
  grows' : scopes'.Grows scopes₁'
  same : ∀ id < scopes.next, φ₁ id = φ id
  fresh : ∀ id, scopes.next ≤ id → id < scopes₁.next → scopes'.next ≤ φ₁ id

/-- The chains above two scopes are instances of two lists of frames. They go up side by side, and
the second one passes through spare scopes, whose frames are empty. -/
inductive Beside (φ : Placement) (scopes scopes' : Scopes) :
    List Frame → List Frame → ScopeId → ScopeId → Prop where
  | globals : Beside φ scopes scopes' [] [] State.globals State.globals
  | frame {frame : Frame} {outer outer' : List Frame} {id parent parent' : ScopeId}
      (hup : scopes.parent? id = some parent) (hup' : scopes'.parent? (φ id) = some parent')
      (houter : Beside φ scopes scopes' outer outer' parent parent') :
      Beside φ scopes scopes' (frame :: outer) (frame :: outer') id (φ id)
  | spare {outer outer' : List Frame} {id id' other : ScopeId}
      (hspare : ∀ a < scopes.next, φ a ≠ other) (hup : scopes'.parent? other = some id')
      (h : Beside φ scopes scopes' outer outer' id id') :
      Beside φ scopes scopes' outer ([] :: outer') id other

section Growth

variable {φ φ₁ φ₂ : Placement} {scopes scopes' scopes₁ scopes₁' scopes₂ scopes₂' : Scopes}

theorem Onward.refl (φ : Placement) (scopes scopes' : Scopes) :
    Onward φ scopes scopes' φ scopes scopes' :=
  ⟨.refl scopes, .refl scopes', fun _ _ => rfl, fun _ hold hnew =>
    absurd hnew (Nat.not_lt.mpr hold)⟩

theorem Onward.trans (h : Onward φ scopes scopes' φ₁ scopes₁ scopes₁')
    (h' : Onward φ₁ scopes₁ scopes₁' φ₂ scopes₂ scopes₂') :
    Onward φ scopes scopes' φ₂ scopes₂ scopes₂' where
  grows := h.grows.trans h'.grows
  grows' := h.grows'.trans h'.grows'
  same id hid := (h'.same id (Nat.lt_of_lt_of_le hid h.grows.next)).trans (h.same id hid)
  fresh id hold hnew := by
    rcases Nat.lt_or_ge id scopes₁.next with hlt | hge
    · rw [h'.same id hlt]
      exact h.fresh id hold hlt
    · exact Nat.le_trans h.grows'.next (h'.fresh id hge hnew)

/-- A scope that nothing stands at stays spare. -/
theorem Onward.spare (h : Onward φ scopes scopes' φ₁ scopes₁ scopes₁') {other : ScopeId}
    (hinside : other < scopes'.next) (hspare : ∀ a < scopes.next, φ a ≠ other) :
    ∀ a < scopes₁.next, φ₁ a ≠ other := by
  intro a ha
  rcases Nat.lt_or_ge a scopes.next with hlt | hge
  · rw [h.same a hlt]
    exact hspare a hlt
  · exact Nat.ne_of_gt (Nat.lt_of_lt_of_le hinside (h.fresh a hge ha))

theorem onward_define (φ : Placement) (scopes scopes' : Scopes) (id id' : ScopeId) (name : Bytes)
    (v : Value) :
    Onward φ scopes scopes' φ (scopes.define id name v) (scopes'.define id' name v) :=
  ⟨grows_define scopes id name v, grows_define scopes' id' name v, fun _ _ => rfl,
    fun _ hold hnew => absurd hnew (by rw [next_define]; exact Nat.not_lt.mpr hold)⟩

/-- A scope is created in both stores. -/
theorem onward_push (φ : Placement) (scopes scopes' : Scopes) (parent parent' : Option ScopeId)
    (bindings : Bindings Value) :
    Onward φ scopes scopes' (Function.update φ scopes.next scopes'.next)
      (scopes.push parent bindings) (scopes'.push parent' bindings) where
  grows := grows_push scopes parent bindings
  grows' := grows_push scopes' parent' bindings
  same id hid := Function.update_of_ne (Nat.ne_of_lt hid) _ _
  fresh id hold hnew := by
    rw [next_push] at hnew
    obtain rfl : id = scopes.next := Nat.le_antisymm (Nat.le_of_lt_succ hnew) hold
    exact Nat.le_of_eq (Function.update_self scopes.next scopes'.next φ).symm

/-- A spare scope is created. -/
theorem onward_pushSpare (φ : Placement) (scopes scopes' : Scopes) (parent' : Option ScopeId) :
    Onward φ scopes scopes' φ scopes (scopes'.push parent' []) where
  grows := .refl scopes
  grows' := grows_push scopes' parent' []
  same _ _ := rfl
  fresh _ hold hnew := absurd hnew (Nat.not_lt.mpr hold)

end Growth

namespace Padded

variable {φ : Placement} {scopes scopes' : Scopes}

theorem self (hpos : 0 < scopes.next) : Padded .same scopes scopes where
  nonempty := hpos
  globals := rfl
  inside _ hid := hid
  apart _ _ _ _ hsame := hsame
  bound _ _ _ := rfl
  spare id hid n := by
    cases hbound : scopes.bound? id n with
    | none => rfl
    | some v => exact absurd rfl (hid id (scopes.lt_next_of_bound? hbound))

theorem define (h : Padded φ scopes scopes') {id : ScopeId} (hid : id < scopes.next) (name : Bytes)
    (v : Value) : Padded φ (scopes.define id name v) (scopes'.define (φ id) name v) where
  nonempty := by simpa using h.nonempty
  globals := h.globals
  inside a ha := by simpa using h.inside a (by simpa using ha)
  apart a ha b hb := h.apart a (by simpa using ha) b (by simpa using hb)
  bound a ha n := by
    rw [next_define] at ha
    rw [bound?_define, bound?_define, h.bound a ha]
    refine if_congr ?_ rfl rfl
    constructor
    · rintro ⟨hsame, hn, -⟩
      exact ⟨h.apart a ha id hid hsame, hn, hid⟩
    · rintro ⟨rfl, hn, -⟩
      exact ⟨rfl, hn, h.inside a ha⟩
  spare other hother n := by
    rw [next_define] at hother
    have hne : ¬(other = φ id ∧ n = name ∧ φ id < scopes'.next) := by
      rintro ⟨rfl, -, -⟩
      exact hother id hid rfl
    rw [bound?_define, if_neg hne]
    exact h.spare other hother n

theorem push (h : Padded φ scopes scopes') (parent parent' : Option ScopeId)
    (bindings : Bindings Value) :
    Padded (Function.update φ scopes.next scopes'.next) (scopes.push parent bindings)
      (scopes'.push parent' bindings) := by
  have hold {id : ScopeId} (hid : id < scopes.next) :
      Function.update φ scopes.next scopes'.next id = φ id :=
    Function.update_of_ne (Nat.ne_of_lt hid) _ _
  have hcases {id : ScopeId} (hid : id < (scopes.push parent bindings).next) :
      id < scopes.next ∨ id = scopes.next := by
    rw [next_push] at hid
    exact Nat.lt_or_eq_of_le (Nat.le_of_lt_succ hid)
  refine ⟨by simp, ?_, fun id hid => ?_, fun a ha b hb hsame => ?_, fun id hid n => ?_,
    fun id hid n => ?_⟩
  · exact (hold h.nonempty).trans h.globals
  · rw [next_push]
    rcases hcases hid with hlt | rfl
    · rw [hold hlt]
      exact Nat.lt_succ_of_lt (h.inside id hlt)
    · rw [Function.update_self]
      exact Nat.lt_succ_self _
  · rcases hcases ha with ha | rfl <;> rcases hcases hb with hb | rfl
    · rw [hold ha, hold hb] at hsame
      exact h.apart a ha b hb hsame
    · rw [hold ha, Function.update_self] at hsame
      exact absurd hsame (Nat.ne_of_lt (h.inside a ha))
    · rw [hold hb, Function.update_self] at hsame
      exact absurd hsame (Nat.ne_of_gt (h.inside b hb))
    · rfl
  · rw [bound?_push, bound?_push]
    rcases hcases hid with hlt | rfl
    · rw [hold hlt, if_neg (Nat.ne_of_lt (h.inside id hlt)), if_neg (Nat.ne_of_lt hlt),
        h.bound id hlt]
    · rw [Function.update_self, if_pos rfl, if_pos rfl]
  · have hnew : id ≠ scopes'.next := by
      rintro rfl
      exact hid scopes.next (by simp) (Function.update_self _ _ _)
    rw [bound?_push, if_neg hnew]
    refine h.spare id (fun a ha => ?_) n
    have hne := hid a (by rw [next_push]; exact Nat.lt_succ_of_lt ha)
    rwa [hold ha] at hne

theorem pushSpare (h : Padded φ scopes scopes') (parent' : Option ScopeId) :
    Padded φ scopes (scopes'.push parent' []) where
  nonempty := h.nonempty
  globals := h.globals
  inside id hid := by
    rw [next_push]
    exact Nat.lt_succ_of_lt (h.inside id hid)
  apart := h.apart
  bound id hid n := by
    rw [bound?_push, if_neg (Nat.ne_of_lt (h.inside id hid)), h.bound id hid]
  spare id hid n := by
    rw [bound?_push]
    split
    · rfl
    · exact h.spare id hid n

/-! ### Globals -/

theorem bound?_globals (h : Padded φ scopes scopes') (n : Bytes) :
    scopes'.bound? State.globals n = scopes.bound? State.globals n := by
  rw [← h.bound State.globals h.nonempty, h.globals]

theorem holder?_globals (h : Padded φ scopes scopes') (n : Bytes) :
    scopes'.holder? State.globals n = scopes.holder? State.globals n := by
  rw [holder?_globals_eq, holder?_globals_eq, h.bound?_globals]

theorem get?_globals (h : Padded φ scopes scopes') (n : Bytes) :
    scopes'.get? State.globals n = scopes.get? State.globals n := by
  unfold Scopes.get?
  rw [h.holder?_globals, holder?_globals_eq]
  split
  case h_1 holder hholder =>
    split at hholder
    · cases hholder
      exact h.bound?_globals n
    · cases hholder
  case h_2 => rfl

end Padded

/-! ### Chains -/

/-- Distances up both chains: both lead nowhere, or to a scope that stands in both stores. -/
inductive FoundAlike (φ : Placement) (scopes scopes' : Scopes) (id id' : ScopeId) :
    Site → Site → Prop where
  | nowhere : FoundAlike φ scopes scopes' id id' none none
  | scope {d d' : Nat} {scope : ScopeId} (hinside : scope < scopes.next)
      (h : scopes.ancestor? id d = some scope) (h' : scopes'.ancestor? id' d' = some (φ scope)) :
      FoundAlike φ scopes scopes' id id' (some d) (some d')

namespace FoundAlike

variable {φ : Placement} {scopes scopes' : Scopes} {id id' parent parent' : ScopeId}
  {site site' : Site}

theorem up (h : FoundAlike φ scopes scopes' parent parent' site site')
    (hup : scopes.parent? id = some parent) (hup' : scopes'.parent? id' = some parent') :
    FoundAlike φ scopes scopes' id id' (site.map (· + 1)) (site'.map (· + 1)) := by
  cases h with
  | nowhere => exact .nowhere
  | scope hinside h h' =>
      exact .scope hinside ((scopes.ancestor?_succ hup _).trans h)
        ((scopes'.ancestor?_succ hup' _).trans h')

theorem upSpare (h : FoundAlike φ scopes scopes' id parent' site site')
    (hup' : scopes'.parent? id' = some parent') :
    FoundAlike φ scopes scopes' id id' site (site'.map (· + 1)) := by
  cases h with
  | nowhere => exact .nowhere
  | scope hinside h h' => exact .scope hinside h ((scopes'.ancestor?_succ hup' _).trans h')

end FoundAlike

namespace Beside

variable {φ φ₁ : Placement} {scopes scopes' scopes₁ scopes₁' : Scopes} {outer outer' : List Frame}
  {id id' : ScopeId}

theorem inside (h : Beside φ scopes scopes' outer outer' id id') (hpos : 0 < scopes.next) :
    id < scopes.next := by
  induction h with
  | globals => exact hpos
  | frame hup hup' houter ih => exact scopes.lt_next_of_parent? hup
  | spare hspare hup h ih => exact ih

theorem onward (h : Beside φ scopes scopes' outer outer' id id')
    (honward : Onward φ scopes scopes' φ₁ scopes₁ scopes₁') :
    Beside φ₁ scopes₁ scopes₁' outer outer' id id' := by
  induction h with
  | globals => exact .globals
  | @frame frame outer outer' id parent parent' hup hup' houter ih =>
      have hsame := honward.same id (scopes.lt_next_of_parent? hup)
      rw [← hsame]
      refine .frame (honward.grows.parent?_eq_some hup) ?_ ih
      rw [hsame]
      exact honward.grows'.parent?_eq_some hup'
  | spare hspare hup h ih =>
      exact .spare (honward.spare (scopes'.lt_next_of_parent? hup) hspare)
        (honward.grows'.parent?_eq_some hup) ih

/-- A scope is created above both chains. -/
theorem push (h : Beside φ scopes scopes' outer outer' id id') (frame : Frame)
    (bindings : Bindings Value) :
    Beside (Function.update φ scopes.next scopes'.next) (scopes.push (some id) bindings)
      (scopes'.push (some id') bindings) (frame :: outer) (frame :: outer') scopes.next
      scopes'.next := by
  have houter := h.onward (onward_push φ scopes scopes' (some id) (some id') bindings)
  have hstands : Function.update φ scopes.next scopes'.next scopes.next = scopes'.next :=
    Function.update_self _ _ _
  have hup : (scopes.push (some id) bindings).parent? scopes.next = some id := by
    rw [parent?_push, if_pos rfl]
  have hup' : (scopes'.push (some id') bindings).parent? scopes'.next = some id' := by
    rw [parent?_push, if_pos rfl]
  rw [← hstands] at hup'
  have hframe : Beside (Function.update φ scopes.next scopes'.next)
      (scopes.push (some id) bindings) (scopes'.push (some id') bindings) (frame :: outer)
      (frame :: outer') scopes.next (Function.update φ scopes.next scopes'.next scopes.next) :=
    .frame hup hup' houter
  rwa [hstands] at hframe

/-- A spare scope is created above the second chain. -/
theorem pushSpare (h : Beside φ scopes scopes' outer outer' id id')
    (hpadded : Padded φ scopes scopes') :
    Beside φ scopes (scopes'.push (some id') []) outer ([] :: outer') id scopes'.next := by
  have houter := h.onward (onward_pushSpare φ scopes scopes' (some id'))
  refine .spare (fun a ha => Nat.ne_of_lt (hpadded.inside a ha)) ?_ houter
  rw [parent?_push, if_pos rfl]

/-- A chain beside itself. -/
theorem self {frames : List Frame} (h : Matches scopes id frames) :
    Beside .same scopes scopes frames frames id id := by
  induction frames generalizing id with
  | nil =>
      obtain rfl : id = State.globals := h
      exact .globals
  | cons frame frames ih =>
      obtain ⟨-, -, parent, hparent, houter⟩ := h
      have hparent' : scopes.parent? (Placement.same id) = some parent := hparent
      exact .frame hparent hparent' (ih houter)

/-- A frame that is not empty is found on both chains. -/
theorem find (h : Beside φ scopes scopes' outer outer' id id') (p : Frame → Bool)
    (hp : p [] = false) :
    FoundAlike φ scopes scopes' id id' (outer.findIdx? p) (outer'.findIdx? p) := by
  induction h with
  | globals => exact .nowhere
  | frame hup hup' houter ih =>
      rw [List.findIdx?_cons, List.findIdx?_cons]
      split
      · exact .scope (scopes.lt_next_of_parent? hup) rfl rfl
      · exact ih.up hup hup'
  | @spare outer outer' id id' other hspare hup h ih =>
      have hskip : ([] :: outer').findIdx? p = (outer'.findIdx? p).map (· + 1) := by
        rw [List.findIdx?_cons, hp]
        rfl
      rw [hskip]
      exact ih.upSpare hup

/-- A scope at hand that stands in both stores has the same frame on both chains. -/
theorem aligned (h : Beside φ scopes scopes' outer outer' id id') (hpos : 0 < scopes.next)
    (hid : id' = φ id) :
    (outer = [] ∧ outer' = []) ∨ ∃ frame rest rest' parent parent', outer = frame :: rest ∧
      outer' = frame :: rest' ∧ scopes.parent? id = some parent ∧
      scopes'.parent? (φ id) = some parent' ∧ Beside φ scopes scopes' rest rest' parent parent' := by
  cases h with
  | globals => exact .inl ⟨rfl, rfl⟩
  | frame hup hup' houter => exact .inr ⟨_, _, _, _, _, rfl, rfl, hup, hup', houter⟩
  | spare hspare hup h => exact absurd hid.symm (hspare id (h.inside hpos))

end Beside

end Scopes

end Lox
