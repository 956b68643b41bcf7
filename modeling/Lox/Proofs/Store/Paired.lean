import Mathlib.Data.List.Forall2
import Lox.Eval
import Lox.Proofs.Store.Scopes

/-!
# States side by side

Two states of one shape hold things that are related place by place, and have come equally far. Where
functions keep their names and their numbers of parameters, values print alike and are called alike
in both.
-/

namespace Lox

open Eval

/-- Arrays of one size whose elements are related. -/
structure Paired {α β : Type} (R : α → β → Prop) (xs : Array α) (ys : Array β) : Prop where
  size : ys.size = xs.size
  rel : ∀ i : Nat, Option.Rel R xs[i]? ys[i]?

namespace Paired

variable {α β : Type} {R S : α → β → Prop} {xs : Array α} {ys : Array β}

theorem mono (h : Paired R xs ys) (hRS : ∀ a b, R a b → S a b) : Paired S xs ys := by
  refine ⟨h.size, fun i => ?_⟩
  have hi := h.rel i
  generalize xs[i]? = x at hi ⊢
  generalize ys[i]? = y at hi ⊢
  cases hi with
  | none => exact .none
  | some hab => exact .some (hRS _ _ hab)

theorem self {R : α → α → Prop} (h : ∀ a ∈ xs, R a a) : Paired R xs xs := by
  refine ⟨rfl, fun i => ?_⟩
  cases hi : xs[i]? with
  | none => exact .none
  | some a => exact .some (h a (Array.mem_of_getElem? hi))

theorem push (h : Paired R xs ys) {a : α} {b : β} (hab : R a b) :
    Paired R (xs.push a) (ys.push b) := by
  refine ⟨by simp [h.size], fun i => ?_⟩
  rw [Array.getElem?_push, Array.getElem?_push, h.size]
  split
  · exact .some hab
  · exact h.rel i

end Paired

/-! ### States side by side -/

/-- The functions have one name and take equally many arguments. -/
structure Function.SameSignature (f f' : Function) : Prop where
  name : f'.decl.name = f.decl.name
  length : f'.decl.params.length = f.decl.params.length

/-- Classes of one name and one superclass, whose methods are related name by name. -/
structure Class.SideBySide (M : Function → Function → Prop) (c c' : Class) : Prop where
  name : c'.name = c.name
  superclass : c'.superclass = c.superclass
  methods : ∀ n, Option.Rel M (c.methods.lookup n) (c'.methods.lookup n)

theorem Class.SideBySide.mono {M N : Function → Function → Prop} {c c' : Class}
    (h : c.SideBySide M c') (hMN : ∀ f f', M f f' → N f f') : c.SideBySide N c' := by
  refine ⟨h.name, h.superclass, fun n => ?_⟩
  have hn := h.methods n
  generalize c.methods.lookup n = x at hn ⊢
  generalize c'.methods.lookup n = y at hn ⊢
  cases hn with
  | none => exact .none
  | some hf => exact .some (hMN _ _ hf)

/-- States that differ in their scopes alone: functions are related by `F` and methods by `M` place by
place, and all else is the same. -/
structure State.SideBySide (F M : Function → Function → Prop) (σ σ' : State) : Prop where
  functions : Paired F σ.functions σ'.functions
  classes : Paired (Class.SideBySide M) σ.classes σ'.classes
  objects : σ'.objects = σ.objects
  depth : σ'.depth = σ.depth
  clock : σ'.clock = σ.clock
  printed : σ'.printed = σ.printed

namespace State.SideBySide

variable {F M : Function → Function → Prop} {σ σ' : State}

/-- The scopes may become others, and with them what functions are related by. -/
theorem withScopes (h : σ.SideBySide F M σ') {F' M' : Function → Function → Prop}
    (hF : ∀ f f', F f f' → F' f f') (hM : ∀ f f', M f f' → M' f f') (after after' : Scopes) :
    ({ σ with scopes := after } : State).SideBySide F' M' { σ' with scopes := after' } :=
  { h with
    functions := h.functions.mono hF
    classes := h.classes.mono fun _ _ hc => hc.mono hM }

/-- The clock is read alike, and nothing but the clock is changed by it. -/
theorem exists_tick (h : σ.SideBySide F M σ') : ∃ reading clock,
    σ.tick = (reading, { σ with clock }) ∧ σ'.tick = (reading, { σ' with clock }) := by
  obtain ⟨_, _, _, _, _, _, clock, _⟩ := σ
  obtain ⟨_, _, _, _, _, _, clock', _⟩ := σ'
  obtain rfl : clock' = clock := h.clock
  rcases clock' with _ | ⟨reading, _ | ⟨next, later⟩⟩
  · exact ⟨0, [], rfl, rfl⟩
  · exact ⟨reading, [reading], rfl, rfl⟩
  · exact ⟨reading, next :: later, rfl, rfl⟩

theorem method? (h : σ.SideBySide F M σ') (id : ClassId) (n : Bytes) :
    Option.Rel M (σ.method? id n) (σ'.method? id n) := by
  induction id using Nat.strongRecOn with
  | ind id ih =>
      rw [State.method?, State.method?]
      have hid := h.classes.rel id
      generalize σ.classes[id]? = x at hid ⊢
      generalize σ'.classes[id]? = y at hid ⊢
      cases hid with
      | none => exact .none
      | @some c c' hc =>
          dsimp only
          have hn := hc.methods n
          rw [hc.superclass]
          generalize c.methods.lookup n = x at hn ⊢
          generalize c'.methods.lookup n = y at hn ⊢
          cases hn with
          | some hf => exact .some hf
          | none =>
              dsimp only
              cases c.superclass with
              | none => exact .none
              | some parent =>
                  dsimp only
                  split
                  case isTrue hlt => exact ih parent hlt
                  case isFalse => exact .none

theorem className (h : σ.SideBySide F M σ') (id : ClassId) : σ'.className id = σ.className id := by
  unfold State.className
  have hid := h.classes.rel id
  generalize σ.classes[id]? = x at hid ⊢
  generalize σ'.classes[id]? = y at hid ⊢
  cases hid with
  | none => rfl
  | some hc => exact hc.name

/-- Values print in the same way. -/
theorem text (h : σ.SideBySide F M σ') (hF : ∀ f f', F f f' → f.SameSignature f') (v : Value) :
    σ'.text v = σ.text v := by
  cases v with
  | bool b => cases b <;> rfl
  | function id =>
      simp only [State.text]
      have hid := h.functions.rel id
      generalize σ.functions[id]? = x at hid ⊢
      generalize σ'.functions[id]? = y at hid ⊢
      cases hid with
      | none => rfl
      | some hf =>
          dsimp only
          rw [(hF _ _ hf).name]
  | «class» id => exact h.className id
  | object id => simp only [State.text, h.objects, h.className]
  | _ => rfl

theorem arity? (h : σ.SideBySide F M σ') (hF : ∀ f f', F f f' → f.SameSignature f')
    (hM : ∀ f f', M f f' → f.SameSignature f') (v : Value) : arity? v σ' = arity? v σ := by
  cases v with
  | function id =>
      simp only [Eval.arity?]
      have hid := h.functions.rel id
      generalize σ.functions[id]? = x at hid ⊢
      generalize σ'.functions[id]? = y at hid ⊢
      cases hid with
      | none => rfl
      | some hf => exact congrArg some (hF _ _ hf).length
  | «class» id =>
      simp only [Eval.arity?]
      have hinit := h.method? id initName
      generalize σ.method? id initName = x at hinit ⊢
      generalize σ'.method? id initName = y at hinit ⊢
      cases hinit with
      | none => rfl
      | some hf => exact congrArg some (hM _ _ hf).length
  | _ => rfl

theorem refusal? (h : σ.SideBySide F M σ') (hF : ∀ f f', F f f' → f.SameSignature f')
    (hM : ∀ f f', M f f' → f.SameSignature f') (callee : Value) (given : Nat) :
    refusal? callee given σ' = refusal? callee given σ := by
  unfold Eval.refusal?
  rw [h.arity? hF hM, h.depth]

end State.SideBySide

/-- Methods that are related one by one are related name by name. -/
theorem Paired.methodTable {M : Function → Function → Prop} {closure closure' : ScopeId}
    {methods methods' : List (FunctionDecl Site)}
    (h : List.Forall₂ (fun d d' => d'.name = d.name ∧
      M ⟨d, closure, d.name.lexeme = initName⟩ ⟨d', closure', d'.name.lexeme = initName⟩)
      methods methods') (n : Bytes) :
    Option.Rel M ((Eval.methodTable closure methods).lookup n)
      ((Eval.methodTable closure' methods').lookup n) := by
  have hfold (table table' : Bindings Function)
      (htable : Option.Rel M (table.lookup n) (table'.lookup n)) :
      Option.Rel M
        ((methods.foldl (fun table decl => Bindings.insert decl.name.lexeme
          ⟨decl, closure, decl.name.lexeme = initName⟩ table) table).lookup n)
        ((methods'.foldl (fun table decl => Bindings.insert decl.name.lexeme
          ⟨decl, closure', decl.name.lexeme = initName⟩ table) table').lookup n) := by
    induction h generalizing table table' with
    | nil => exact htable
    | cons hd _ ih =>
        obtain ⟨hname, hmethod⟩ := hd
        refine ih _ _ ?_
        rw [Bindings.lookup_insert, Bindings.lookup_insert, hname]
        split
        · rw [hname] at hmethod
          exact .some hmethod
        · exact htable
  exact hfold [] [] .none

end Lox
