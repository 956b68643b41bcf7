import Lox.Proofs.Heap.Construction
import Lox.Proofs.Session.Receivers

/-!
# Construction in a session

Wherever a session calls a class, the count of arguments, the new instance and the initializer that
is run on it go together; and wherever it calls an initializer, the receiver comes back.
-/

namespace Lox.Session

open Resolution Eval

theorem prepared_of_trace (clock : List Int) (fuel : Nat) (steps : List Step) {t : Task} {σ : State}
    (h : (t, σ) ∈ (start clock).trace fuel steps) : t.Prepared (Visited steps) σ := by
  have hsound := sound_start clock (Visited steps)
  have hpre := pre_of_trace fuel steps (fun _ hstep => hstep) hsound _ h
  obtain ⟨hready, hheap⟩ :=
    received_of_trace fuel steps (fun _ hstep => hstep) (homely_start clock) hsound _ h
  exact ⟨hpre, hready, hheap⟩

/-- A function value that may be called is invoked as it may be. -/
theorem prepared_invoke {V : Context → Place → Prop} {id : FunctionId} {paren : Token}
    {arguments : List Value} {σ : State}
    (h : (Task.call (.function id) paren arguments).Prepared V σ) {f : Function}
    (hf : σ.functions[id]? = some f) (hlength : f.decl.params.length = arguments.length) :
    (Task.invoke f arguments).Prepared V { σ with depth := σ.depth + 1 } := by
  obtain ⟨hsound, -, harguments⟩ := h.pre
  have hext : σ.Extends { σ with depth := σ.depth + 1 } := .of_eq rfl rfl rfl rfl
  have hmem : f ∈ σ.functions := Array.mem_of_getElem? hf
  refine ⟨⟨hsound.withDepth _, hsound.functions f hmem, ?_, hlength⟩, ⟨?_, ?_⟩, ?_⟩
  · intro v hv
    exact (harguments v hv).grows ⟨.refl _, Nat.le_refl _, Nat.le_refl _, Nat.le_refl _⟩
  · exact h.ready.1.extends hext rfl
  · exact (h.heap.functions f hmem).extends hext
  · exact h.heap.of_eq rfl rfl rfl rfl

/-- In every session, a class takes the arguments of the nearest `init` in its chain of superclasses,
and a call of it that succeeds yields a new instance of just that class, on which that `init` has
been run once; and every call of an `init` that succeeds yields the instance to which it is bound. -/
theorem construction_yields_instance (clock : List Int) (fuel : Nat) (steps : List Step) :
    (∀ id paren arguments σ,
      (.call (.class id) paren arguments, σ) ∈ (start clock).trace fuel steps →
      ∃ init, (∀ m, init = some m ↔ σ.Finds initName id m) ∧
        (∀ n, (Value.class id).call (n + 1) paren arguments σ =
          if arguments.length = takes init then
            if maxDepth ≤ σ.depth then .error ⟨paren, .stackOverflow⟩ σ
            else
              ((Value.class id).apply n arguments { σ with depth := σ.depth + 1 }).leaving fun σ =>
                { σ with depth := σ.depth - 1 }
          else .error ⟨paren, .arity (takes init) arguments.length⟩ σ) ∧
        ∀ n v σ', (Value.class id).call n paren arguments σ = .ok v σ' →
          Constructs n σ id paren arguments init v σ') ∧
    (∀ id paren arguments σ,
      (.call (.function id) paren arguments, σ) ∈ (start clock).trace fuel steps →
      ∀ f receiver, σ.functions[id]? = some f → f.decl.name.lexeme = initName →
        σ.scopes.bound? f.closure thisName = some (.object receiver) →
        ∀ n v σ', (Value.function id).call n paren arguments σ = .ok v σ' → v = .object receiver) ∧
    ∀ f arguments σ, (.invoke f arguments, σ) ∈ (start clock).trace fuel steps →
      (f.isInitializer = true ↔ f.decl.name.lexeme = initName ∧
        ∃ receiver, σ.scopes.bound? f.closure thisName = some (.object receiver)) ∧
      ∀ receiver, f.decl.name.lexeme = initName →
        σ.scopes.bound? f.closure thisName = some (.object receiver) →
        ∀ n v σ', f.apply n arguments σ = .ok v σ' → v = .object receiver := by
  have hwalked := walked_visited steps
  refine ⟨?_, ?_, ?_⟩
  · intro id paren arguments σ hmem
    have hprepared := prepared_of_trace clock fuel steps hmem
    refine ⟨σ.method? id initName, fun m => State.method?_eq_some_iff hprepared.heap, ?_, ?_⟩
    · intro n
      exact call_class σ id paren arguments n
    · intro n v σ' hcall
      exact hprepared.constructs hwalked hcall
  · intro id paren arguments σ hmem f receiver hf hname hreceiver n v σ' hcall
    have hprepared := prepared_of_trace clock fuel steps hmem
    obtain ⟨g, m, σ₁, hg, hlength, hrun⟩ := exists_invoke_of_call hcall
    obtain rfl : f = g := Option.some.inj (hf.symm.trans hg)
    exact (prepared_invoke hprepared hf hlength).initializer_yields hwalked hname hreceiver hrun
  · intro f arguments σ hmem
    have hprepared := prepared_of_trace clock fuel steps hmem
    obtain ⟨hsound, hf, -⟩ := hprepared.pre
    refine ⟨isInitializer_iff hwalked hsound hf hprepared.ready.2, ?_⟩
    intro receiver hname hreceiver n v σ' hrun
    exact hprepared.initializer_yields hwalked hname hreceiver hrun

/-- The task makes an instance of a class with an initializer. -/
def makesInstance (n : Nat) : Task × State → Bool
  | (.call (.class id) paren arguments, σ) =>
      (σ.method? id initName).isSome &&
        match (Value.class id).call n paren arguments σ with
        | .ok _ _ => true
        | _ => false
  | _ => false

/-- The task calls a function named `init` that has a receiver. -/
def callsInit (n : Nat) : Task × State → Bool
  | (.call (.function id) paren arguments, σ) =>
      match σ.functions[id]? with
      | some f =>
          f.decl.name.lexeme = initName &&
            match σ.scopes.bound? f.closure thisName,
              (Value.function id).call n paren arguments σ with
            | some (.object _), .ok _ _ => true
            | _, _ => false
      | none => false
  | _ => false

/-- An inherited initializer that ends with a `return` inside a block is run by a construction, and
then called by a later source. -/
theorem construction_yields_instance_inherited :
    let steps : List Step :=
      [.run (bytes "class A{init(a){this.a=a;if(a){return;}}}class B<A{}var b=B(true);"),
        .run (bytes "b.init(false);")]
    (∃ id paren arguments σ, (.call (.class id) paren arguments, σ) ∈ (start []).trace 30 steps ∧
      ∃ m v σ', σ.Finds initName id m ∧
        (Value.class id).call 30 paren arguments σ = .ok v σ' ∧
        Constructs 30 σ id paren arguments (some m) v σ') ∧
    ∃ id paren arguments σ f receiver v σ',
      (.call (.function id) paren arguments, σ) ∈ (start []).trace 30 steps ∧
      σ.functions[id]? = some f ∧ f.decl.name.lexeme = initName ∧
      σ.scopes.bound? f.closure thisName = some (.object receiver) ∧
      (Value.function id).call 30 paren arguments σ = .ok v σ' ∧ v = .object receiver := by
  intro steps
  obtain ⟨hclass, hfunction, -⟩ := construction_yields_instance [] 30 steps
  constructor
  · have htrace : ((start []).trace 30 steps).any (makesInstance 30) = true := by decide +kernel
    obtain ⟨⟨t, σ⟩, hmem, ht⟩ := List.any_eq_true.mp htrace
    cases t with
    | call callee paren arguments =>
        cases callee with
        | «class» id =>
            obtain ⟨init, hinit, -, hconstructs⟩ := hclass id paren arguments σ hmem
            obtain ⟨hsome, hends⟩ := Bool.and_eq_true_iff.mp ht
            obtain ⟨m, hm⟩ := Option.isSome_iff_exists.mp hsome
            have hheap := (prepared_of_trace [] 30 steps hmem).heap
            have hfinds := (State.method?_eq_some_iff hheap).mp hm
            cases hcall : (Value.class id).call 30 paren arguments σ with
            | ok v σ' =>
                refine ⟨id, paren, arguments, σ, hmem, m, v, σ', hfinds, hcall, ?_⟩
                have hyields := hconstructs 30 v σ' hcall
                rwa [(hinit m).mpr hfinds] at hyields
            | error e σ' => simp [hcall] at hends
            | broken σ' => simp [hcall] at hends
            | outOfFuel => simp [hcall] at hends
        | _ => cases ht
    | _ => cases ht
  · have htrace : ((start []).trace 30 steps).any (callsInit 30) = true := by decide +kernel
    obtain ⟨⟨t, σ⟩, hmem, ht⟩ := List.any_eq_true.mp htrace
    unfold callsInit at ht
    split at ht
    case h_1 id paren arguments σ heq =>
      cases heq
      split at ht
      case h_1 f hf =>
        obtain ⟨hname, hends⟩ := Bool.and_eq_true_iff.mp ht
        split at hends
        case h_1 receiver v σ' hreceiver hcall =>
          have hinit := of_decide_eq_true hname
          exact ⟨id, paren, arguments, _, f, receiver, v, σ', hmem, hf, hinit, hreceiver, hcall,
            hfunction id paren arguments _ hmem f receiver hf hinit hreceiver 30 v σ' hcall⟩
        case h_2 => cases hends
      case h_2 => cases ht
    case h_2 => cases ht

end Lox.Session
