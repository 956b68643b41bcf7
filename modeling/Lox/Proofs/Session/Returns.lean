import Lox.Proofs.Eval.Activation
import Lox.Proofs.Session.Trace

/-!
# Returns stop at calls

In the sources that a session accepts, a `return` stands in a function, and one with a value in none
that is an initializer. So no program of a session is left by a `return`; each ends the activation
in which it is executed, and there alone, and decides what that call yields.
-/

namespace Lox.Session

open Resolution Eval

/-- What the run of a function that is invoked shows of its body. -/
structure EndsByReturn (n : Nat) (f : Function) (arguments : List Value) (σ : State) : Prop where
  part : ((Task.invoke f arguments).own n σ).Sublist ((Task.invoke f arguments).trace n σ)
  /-- Its statements stand in the body, outside of the functions declared there. -/
  body : ∀ s τ, (.exec s, τ) ∈ (Task.invoke f arguments).own n σ → s ∈ Stmt.withinAll f.decl.body
  /-- It yields the value of the first `return` among them, behind which there are no more, or `nil`. -/
  value : f.isInitializer = false → ∀ v σ', f.apply n arguments σ = .ok v σ' →
    ∃ c : Completion, c.Shown ((Task.invoke f arguments).own n σ) ∧ v = c.value
  /-- No `return` of an initializer has a value. -/
  initializer : f.isInitializer = true → ∀ keyword e τ,
    (.exec (.return keyword (some e)), τ) ∉ (Task.invoke f arguments).own n σ

theorem exec_top_normal {source : Bytes} (h : Accepted source) {s : Stmt Site}
    (hs : s ∈ resolve (Reading.ofSource source).program) {n : Nat} {σ σ' : State} {c : Completion}
    (hrun : s.exec n σ = .ok c σ') : c = .normal := by
  have hallows := Stmt.allows_withinAll _ .top h.staticErrors_eq_nil
  have hshown : c.Shown ((Task.exec s).own n σ) := (Task.exec s).told n σ c σ' hrun
  cases c with
  | normal => rfl
  | returned v =>
      obtain ⟨before, keyword, value, τ, after, htasks, -⟩ := hshown
      have hmem : (.exec (.return keyword value), τ) ∈ (Task.exec s).own n σ := by simp [htasks]
      have hwithin : .return keyword value ∈ s.within := Task.stmts_of_own hmem rfl
      exact absurd rfl (hallows _ (Stmt.mem_withinAll hs hwithin)).1

theorem endsByReturn_of_sound {V : Context → Place → Prop} (hwalked : Walked V) {scopes : Scopes}
    {f : Function} (hf : FunctionSound V scopes f) (n : Nat) (arguments : List Value) (σ : State) :
    EndsByReturn n f arguments σ where
  part := Task.own_sublist_trace n _ σ
  body _ _ hmem := Task.stmts_of_own hmem rfl
  value hinit _ _ hrun := exists_shown_of_invoke hinit hrun
  initializer hinit keyword e τ hmem := by
    obtain ⟨ctx, kind, d, hvisit, hdecl, hkind, -⟩ := hf
    have hwithin : .return keyword (some e) ∈ Stmt.withinAll f.decl.body :=
      Task.stmts_of_own hmem rfl
    rw [hdecl] at hwithin
    have hallows := FunctionDecl.allows_body (hwalked.checked hvisit).faultless _ hwithin
    exact nomatch hallows.2 (hkind.mp hinit)

/-- In every session, the statements of accepted sources end normally, so no `return` reaches the
interpreter; a function that is called yields the value of the first `return` that its own activation
executes, which is its last statement, or `nil`; and initializers return no values. -/
theorem returns_stop_at_calls (clock : List Int) (fuel : Nat) (steps : List Step) :
    (∀ source, .run source ∈ steps → Accepted source →
      ∀ s ∈ resolve (Reading.ofSource source).program, ∀ n σ c σ',
        s.exec n σ = .ok c σ' → c = .normal) ∧
    (∀ id paren arguments σ,
      (.call (.function id) paren arguments, σ) ∈ (start clock).trace fuel steps →
      ∀ n v σ', (Value.function id).call n paren arguments σ = .ok v σ' →
        ∃ f m σ₁, σ.functions[id]? = some f ∧ f.decl.params.length = arguments.length ∧
          f.apply m arguments { σ with depth := σ.depth + 1 } = .ok v σ₁ ∧
          EndsByReturn m f arguments { σ with depth := σ.depth + 1 }) ∧
    ∀ f arguments σ, (.invoke f arguments, σ) ∈ (start clock).trace fuel steps →
      ∀ n, EndsByReturn n f arguments σ := by
  have hwalked := walked_visited steps
  have hpre := pre_of_trace fuel steps (fun _ hstep => hstep) (sound_start clock (Visited steps))
  refine ⟨?_, ?_, ?_⟩
  · intro source _ haccepted s hs n σ c σ' hrun
    exact exec_top_normal haccepted hs hrun
  · intro id paren arguments σ hmem n v σ' hcall
    obtain ⟨f, m, σ₁, hf, hlength, hrun⟩ := exists_invoke_of_call hcall
    have hsound := (hpre _ hmem).1.functions f (Array.mem_of_getElem? hf)
    exact ⟨f, m, σ₁, hf, hlength, hrun, endsByReturn_of_sound hwalked hsound m _ _⟩
  · intro f arguments σ hmem n
    obtain ⟨-, hf, -⟩ := hpre _ hmem
    exact endsByReturn_of_sound hwalked hf n arguments σ

/-- The task calls a function that yields `true`. -/
def yieldsTrue (n : Nat) : Task × State → Bool
  | (.call (.function id) paren arguments, σ) =>
      match (Value.function id).call n paren arguments σ with
      | .ok v _ => v = .bool true
      | _ => false
  | _ => false

def isInitialization : Task → Bool
  | .invoke f _ => f.isInitializer
  | _ => false

/-- The statement is executed to its end. -/
def ends (n : Nat) (σ : State) (s : Stmt Site) : Bool :=
  match s.exec n σ with
  | .ok _ _ => true
  | _ => false

/-- A `return` in two blocks in a loop ends the call of a later source, and one without a value ends an
initializer. -/
theorem returns_stop_at_calls_nested :
    let source := bytes "f(false);class A{init(){if(true){return;}}}A();"
    let steps : List Step :=
      [.run (bytes "fun f(a){while(true){if(a){{return true;}}a=true;}}"), .run source]
    (Accepted source ∧ ∃ s ∈ resolve (Reading.ofSource source).program, ∃ c σ',
      s.exec 30 (start []).state = .ok c σ' ∧ c = .normal) ∧
    (∃ id paren arguments σ v σ',
      (.call (.function id) paren arguments, σ) ∈ (start []).trace 30 steps ∧
      (Value.function id).call 30 paren arguments σ = .ok v σ' ∧ v = .bool true ∧
      ∃ f m σ₁, σ.functions[id]? = some f ∧ f.decl.params.length = arguments.length ∧
        f.apply m arguments { σ with depth := σ.depth + 1 } = .ok v σ₁ ∧
        EndsByReturn m f arguments { σ with depth := σ.depth + 1 }) ∧
    ∃ f arguments σ, (.invoke f arguments, σ) ∈ (start []).trace 30 steps ∧
      f.isInitializer = true ∧ EndsByReturn 30 f arguments σ := by
  intro source steps
  obtain ⟨htop, hcall, hinvoke⟩ := returns_stop_at_calls [] 30 steps
  have haccepted : Accepted source := by decide +kernel
  refine ⟨⟨haccepted, ?_⟩, ?_, ?_⟩
  · have hends : (resolve (Reading.ofSource source).program).any
        (ends 30 (start []).state) = true := by decide +kernel
    obtain ⟨s, hs, hend⟩ := List.any_eq_true.mp hends
    unfold ends at hend
    cases hrun : s.exec 30 (start []).state with
    | ok c σ' =>
        exact ⟨s, hs, c, σ', hrun, htop source (by simp [steps]) haccepted s hs _ _ c σ' hrun⟩
    | error e σ' => simp [hrun] at hend
    | broken σ' => simp [hrun] at hend
    | outOfFuel => simp [hrun] at hend
  · have hyields : ((start []).trace 30 steps).any (yieldsTrue 30) = true := by decide +kernel
    obtain ⟨⟨t, σ⟩, hmem, ht⟩ := List.any_eq_true.mp hyields
    cases t with
    | call callee paren arguments =>
        cases callee with
        | function id =>
            cases hrun : (Value.function id).call 30 paren arguments σ with
            | ok v σ' =>
                simp only [yieldsTrue, hrun, decide_eq_true_eq] at ht
                exact ⟨id, paren, arguments, σ, v, σ', hmem, hrun, ht,
                  hcall id paren arguments σ hmem 30 v σ' hrun⟩
            | error e σ' => simp [yieldsTrue, hrun] at ht
            | broken σ' => simp [yieldsTrue, hrun] at ht
            | outOfFuel => simp [yieldsTrue, hrun] at ht
        | _ => cases ht
    | _ => cases ht
  · have hinit : ((start []).trace 30 steps).any (fun p => isInitialization p.1) = true := by
      decide +kernel
    obtain ⟨⟨t, σ⟩, hmem, ht⟩ := List.any_eq_true.mp hinit
    cases t with
    | invoke f arguments => exact ⟨f, arguments, σ, hmem, ht, hinvoke f arguments σ hmem 30⟩
    | _ => cases ht

end Lox.Session
