import Lox.Eval
import Lox.Proofs.Lines.Tree

/-!
# States on other lines

A state holds code, and code holds lines. With other lines in it, and with more output in front of
its own, a state is looked up and changed in the same way; only the tokens of errors differ.
-/

namespace Lox

open Eval

/-! ### Bindings of other values -/

namespace Bindings

variable {α β : Type}

def mapValues (f : α → β) (bindings : Bindings α) : Bindings β :=
  bindings.map fun (name, a) => (name, f a)

theorem lookup_mapValues (f : α → β) (bindings : Bindings α) (name : Bytes) :
    (bindings.mapValues f).lookup name = (bindings.lookup name).map f := by
  induction bindings with
  | nil => rfl
  | cons binding rest ih =>
      obtain ⟨other, a⟩ := binding
      simp only [mapValues, List.map_cons, List.lookup_cons]
      by_cases h : name == other
      · simp [h]
      · simp only [h]
        exact ih

theorem insert_mapValues (f : α → β) (name : Bytes) (a : α) (bindings : Bindings α) :
    Bindings.insert name (f a) (bindings.mapValues f) =
      (Bindings.insert name a bindings).mapValues f := by
  induction bindings with
  | nil => rfl
  | cons binding rest ih =>
      obtain ⟨other, b⟩ := binding
      simp only [mapValues, List.map_cons, Bindings.insert] at ih ⊢
      by_cases h : other = name
      · simp [h]
      · simp [h, ih]

end Bindings

/-! ### Renumbering -/

def Function.renumber (g : Int → Int) (f : Function) : Function :=
  { f with decl := f.decl.renumber g }

def Class.renumber (g : Int → Int) (c : Class) : Class :=
  { c with methods := Bindings.mapValues (Function.renumber g) c.methods }

/-- The state on other lines, behind output that was there before. -/
def State.renumber (g : Int → Int) (earlier : List Bytes) (σ : State) : State :=
  { σ with
    functions := σ.functions.map (Function.renumber g)
    classes := σ.classes.map (Class.renumber g)
    printed := σ.printed ++ earlier }

def RuntimeError.renumber (g : Int → Int) (e : RuntimeError) : RuntimeError :=
  { e with token := e.token.renumber g }

def Outcome.renumber {α : Type} (g : Int → Int) (earlier : List Bytes) : Outcome α → Outcome α
  | .ok a σ => .ok a (σ.renumber g earlier)
  | .error e σ => .error (e.renumber g) (σ.renumber g earlier)
  | .broken σ => .broken (σ.renumber g earlier)
  | .outOfFuel => .outOfFuel

section

variable {α β : Type} {g : Int → Int} {earlier : List Bytes}

theorem Outcome.renumber_bind {o : Outcome α} {f f' : α → State → Outcome β}
    (h : ∀ a σ, f' a (σ.renumber g earlier) = (f a σ).renumber g earlier) :
    (o.renumber g earlier).bind f' = (o.bind f).renumber g earlier := by
  cases o with
  | ok a σ => exact h a σ
  | error e σ => rfl
  | broken σ => rfl
  | outOfFuel => rfl

theorem Outcome.renumber_leaving {o : Outcome α} {f f' : State → State}
    (h : ∀ σ, f' (σ.renumber g earlier) = (f σ).renumber g earlier) :
    (o.renumber g earlier).leaving f' = (o.leaving f).renumber g earlier := by
  cases o <;> simp [Outcome.renumber, Outcome.leaving, h]

end

/-! ### Operations of the store -/

namespace State

variable (g : Int → Int) (earlier : List Bytes) (σ : State)

@[simp]
theorem renumber_scopes : (σ.renumber g earlier).scopes = σ.scopes := rfl

@[simp]
theorem renumber_env : (σ.renumber g earlier).env = σ.env := rfl

@[simp]
theorem renumber_depth : (σ.renumber g earlier).depth = σ.depth := rfl

@[simp]
theorem renumber_objects : (σ.renumber g earlier).objects = σ.objects := rfl

@[simp]
theorem renumber_functions :
    (σ.renumber g earlier).functions = σ.functions.map (Function.renumber g) := rfl

@[simp]
theorem renumber_classes :
    (σ.renumber g earlier).classes = σ.classes.map (Class.renumber g) := rfl

theorem newFunction_renumber (f : Function) :
    (σ.renumber g earlier).newFunction (f.renumber g) =
      ((σ.newFunction f).1, (σ.newFunction f).2.renumber g earlier) := by
  simp [newFunction, renumber]

theorem functionValue_renumber (f : Function) :
    (σ.renumber g earlier).functionValue (f.renumber g) =
      ((σ.functionValue f).1, (σ.functionValue f).2.renumber g earlier) := by
  simp [functionValue, newFunction_renumber]

theorem newClass_renumber (c : Class) :
    (σ.renumber g earlier).newClass (c.renumber g) =
      ((σ.newClass c).1, (σ.newClass c).2.renumber g earlier) := by
  simp [newClass, renumber]

theorem bindMethod_renumber (f : Function) (receiver : ObjectId) :
    (σ.renumber g earlier).bindMethod (f.renumber g) receiver =
      ((σ.bindMethod f receiver).1.renumber g, (σ.bindMethod f receiver).2.renumber g earlier) :=
  rfl

theorem boundMethod_renumber (f : Function) (receiver : ObjectId) :
    (σ.renumber g earlier).boundMethod (f.renumber g) receiver =
      ((σ.boundMethod f receiver).1, (σ.boundMethod f receiver).2.renumber g earlier) := by
  simp only [boundMethod, bindMethod_renumber]
  exact functionValue_renumber g earlier _ _

theorem method?_renumber (id : ClassId) (name : Bytes) :
    (σ.renumber g earlier).method? id name = (σ.method? id name).map (Function.renumber g) := by
  fun_induction State.method? σ id name with
  | case1 id hnone =>
      rw [State.method?]
      simp [hnone]
  | case2 id c hc f hf =>
      rw [State.method?]
      simp [hc, Class.renumber, Bindings.lookup_mapValues, hf]
  | case3 id c hc hf parent hparent hlt ih =>
      rw [State.method?]
      simp [hc, Class.renumber, Bindings.lookup_mapValues, hf, hparent, hlt, ih]
  | case4 id c hc hf parent hparent hlt =>
      rw [State.method?]
      simp [hc, Class.renumber, Bindings.lookup_mapValues, hf, hparent, hlt]
  | case5 id c hc hf hparent =>
      rw [State.method?]
      simp [hc, Class.renumber, Bindings.lookup_mapValues, hf, hparent]

theorem className_renumber (id : ClassId) :
    (σ.renumber g earlier).className id = σ.className id := by
  simp only [className, renumber_classes, Array.getElem?_map]
  cases σ.classes[id]? <;> rfl

theorem text_renumber (v : Value) : (σ.renumber g earlier).text v = σ.text v := by
  cases v with
  | bool b => cases b <;> rfl
  | function id =>
      simp only [text, renumber_functions, Array.getElem?_map]
      cases σ.functions[id]? <;> simp [Function.renumber]
  | «class» id => exact className_renumber g earlier σ id
  | object id =>
      simp only [text, renumber_objects, className_renumber]
  | _ => rfl

theorem tick_renumber :
    (σ.renumber g earlier).tick = (σ.tick.1, σ.tick.2.renumber g earlier) := by
  unfold tick
  rw [show (σ.renumber g earlier).clock = σ.clock from rfl]
  split <;> rfl

end State

end Lox
