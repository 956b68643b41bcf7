import Lox.Proofs.Eval.Activation
import Lox.Proofs.Heap.Reachable
import Lox.Proofs.Heap.Tasks

/-!
# Construction

The call of a class makes an instance that nothing referred to, and runs on it, once, the method
`init` that its class has or inherits. What `this` stands for in the closure of that method never
changes, so every call of it yields the receiver, however its body ends.
-/

namespace Lox

open Resolution Eval

variable {V : Context → Place → Prop}

/-! ### Runs of tasks that may be set off -/

/-- The task may be set off, and receivers are as they should be. -/
structure Task.Prepared (V : Context → Place → Prop) (t : Task) (σ : State) : Prop where
  pre : (soundness V).pre t σ
  ready : receiving.ready t σ
  heap : σ.Heap

theorem Task.Prepared.leaves (hwalked : Walked V) {t : Task} {σ : State} (h : t.Prepared V σ)
    (n : Nat) : (t.run n σ).Leaves fun σ' => σ.Extends σ' ∧ σ'.Heap :=
  ((receiving_holds hwalked).history (soundness_holds hwalked) n h.pre h.ready h.heap).leaves

theorem Task.Prepared.trace (hwalked : Walked V) {t : Task} {σ : State} (h : t.Prepared V σ)
    (n : Nat) {p : Task × State} (hp : p ∈ t.trace n σ) : p.1.Prepared V p.2 := by
  have hpre := (soundness_holds hwalked).trace n h.pre p hp
  obtain ⟨hready, hheap⟩ :=
    (receiving_holds hwalked).trace (soundness_holds hwalked) n h.pre h.ready h.heap p hp
  exact ⟨hpre, hready, hheap⟩

/-! ### Initializers -/

section Initializers

variable {σ : State} {f : Function} {arguments : List Value}

/-- An initializer is closed where `this` stands for an instance. -/
theorem State.Sound.receiver_of_initializer (hwalked : Walked V) (h : σ.Sound V)
    (hf : FunctionSound V σ.scopes f) (hinit : f.isInitializer = true) :
    f.decl.name.lexeme = initName ∧
      ∃ receiver, σ.scopes.bound? f.closure thisName = some (.object receiver) := by
  obtain ⟨ctx, kind, d, hvisit, hdecl, hkind, hmatches⟩ := hf
  have hinitializer := hkind.mp hinit
  subst hinitializer
  rcases (hwalked.checked hvisit).housed with hfunction | ⟨hmethod, outer, hscopes⟩
  · cases hfunction
  constructor
  · rw [hdecl, name_resolve]
    unfold Context.methodKind at hmethod
    split at hmethod
    case isTrue heq => exact heq
    case isFalse => cases hmethod
  · rw [hscopes] at hmatches
    obtain ⟨v, hv⟩ := Option.isSome_iff_exists.mp (hmatches.2.1 thisName (by simp))
    obtain ⟨receiver, rfl⟩ := (h.bound _ _ _ hv).2.1 rfl
    exact ⟨receiver, hv⟩

/-- Initializers are the methods named `init` once they are bound to a receiver. -/
theorem isInitializer_iff (hwalked : Walked V) (h : σ.Sound V)
    (hf : FunctionSound V σ.scopes f) (hhome : σ.FunctionHome f) :
    f.isInitializer = true ↔ f.decl.name.lexeme = initName ∧
      ∃ receiver, σ.scopes.bound? f.closure thisName = some (.object receiver) := by
  refine ⟨h.receiver_of_initializer hwalked hf, ?_⟩
  rintro ⟨hname, receiver, hreceiver⟩
  obtain ⟨other, owner, m, -, hoffers, -, hdecl, hinit⟩ := hhome.receiver _ hreceiver
  obtain ⟨c, used, hc, hm⟩ := hoffers.method
  obtain ⟨⟨ctx, d, ds, outer, -, hresolve, hkind, -⟩, -⟩ :=
    h.classes c (Array.mem_of_getElem? hc) used m hm
  have hinitName : d.name.lexeme = initName := by
    rw [← hname, ← hdecl, hresolve, name_resolve]
  rw [← hinit, hkind, Context.methodKind, if_pos hinitName]

/-- What an initializer yields is read back from its closure, where `this` still stands for the
receiver. -/
theorem Task.Prepared.initializer_yields (hwalked : Walked V)
    (h : (Task.invoke f arguments).Prepared V σ) (hname : f.decl.name.lexeme = initName)
    {receiver : ObjectId} (hreceiver : σ.scopes.bound? f.closure thisName = some (.object receiver))
    {n : Nat} {v : Value} {σ' : State} (hrun : f.apply n arguments σ = .ok v σ') :
    v = .object receiver := by
  obtain ⟨hsound, hf, -⟩ := h.pre
  obtain ⟨-, hhome⟩ := h.ready
  have hinit : f.isInitializer = true :=
    (isInitializer_iff hwalked hsound hf hhome).mpr ⟨hname, receiver, hreceiver⟩
  have hext : σ.Extends σ' := (h.leaves hwalked n σ' (by rw [Task.run, hrun]; rfl)).1
  have hstays : σ'.scopes.bound? f.closure thisName = some (.object receiver) :=
    (hext.reserved _ hhome.closure _ (.inl rfl)).trans hreceiver
  cases n with
  | zero => simp [Function.apply] at hrun
  | succ n =>
      rw [Function.apply] at hrun
      obtain ⟨c, σ₁, -, hresult⟩ := Outcome.bind_eq_ok.mp hrun
      have hsame : σ' = σ₁ := leaves_result f c σ' (by rw [hresult]; rfl)
      subst hsame
      simp only [result, hinit, ↓reduceIte, Scopes.getAt?, Scopes.ancestor?_zero, hstays,
        Option.getD_some, Outcome.ok.injEq, and_true] at hresult
      exact hresult.symm

end Initializers

/-! ### Calls of classes -/

/-- The functions that an activation invokes itself. -/
def Task.invocations (n : Nat) (t : Task) (σ : State) : List (Task × State) :=
  (t.own n σ).filter fun p => p.1.isInvocation

/-- The number of arguments that a class takes, by its initializer. -/
def takes (init : Option Function) : Nat :=
  init.elim 0 fun f => f.decl.params.length

/-- The function is the method with `this` bound to the receiver, directly around its body. -/
structure State.Binds (σ : State) (f : Function) (receiver : ObjectId) (m : Function) : Prop where
  decl : f.decl = m.decl
  isInitializer : f.isInitializer = m.isInitializer
  this : σ.scopes.bound? f.closure thisName = some (.object receiver)
  parent : σ.scopes.parent? f.closure = some m.closure

theorem State.binds_bindMethod (σ : State) (m : Function) (receiver : ObjectId) :
    (σ.bindMethod m receiver).2.Binds (σ.bindMethod m receiver).1 receiver m where
  decl := rfl
  isInitializer := rfl
  this := by
    have hbound := σ.scopes.bound?_push (some m.closure) [(thisName, .object receiver)]
      σ.scopes.next thisName
    rw [if_pos rfl] at hbound
    exact hbound.trans (by simp)
  parent := by
    have hparent := σ.scopes.parent?_push (some m.closure) [(thisName, .object receiver)]
      σ.scopes.next
    rwa [if_pos rfl] at hparent

section Classes

variable {σ : State} {id : ClassId} {paren : Token} {arguments : List Value}

theorem arity?_class (σ : State) (id : ClassId) :
    arity? (.class id) σ = some (takes (σ.method? id initName)) := by
  simp only [arity?, takes]
  cases σ.method? id initName <;> rfl

/-- The arguments of a class are counted against the parameters of its initializer. -/
theorem call_class (σ : State) (id : ClassId) (paren : Token) (arguments : List Value) (n : Nat) :
    (Value.class id).call (n + 1) paren arguments σ =
      if arguments.length = takes (σ.method? id initName) then
        if maxDepth ≤ σ.depth then .error ⟨paren, .stackOverflow⟩ σ
        else
          ((Value.class id).apply n arguments { σ with depth := σ.depth + 1 }).leaving fun σ =>
            { σ with depth := σ.depth - 1 }
      else
        .error ⟨paren, .arity (takes (σ.method? id initName)) arguments.length⟩ σ := by
  rw [Value.call, refusal?, arity?_class]
  by_cases hlength : arguments.length = takes (σ.method? id initName)
  · by_cases hdepth : maxDepth ≤ σ.depth <;> simp [hlength, hdepth, fail]
  · simp [hlength, fail]

/-- The state in which the initializer of a new instance is bound. -/
def State.constructing (σ : State) (id : ClassId) : State :=
  (State.newObject { σ with depth := σ.depth + 1 } ⟨id, []⟩).2

theorem method?_constructing (σ : State) (id : ClassId) (name : Bytes) (other : ClassId) :
    (σ.constructing id).method? other name = σ.method? other name :=
  method?_congr σ (σ.constructing id) rfl other name

theorem invocations_call_class (hrefusal : refusal? (.class id) arguments.length σ = none)
    (n : Nat) :
    (Task.call (.class id) paren arguments).invocations (n + 2) σ =
      match σ.method? id initName with
      | some init =>
          [(.invoke ((σ.constructing id).bindMethod init σ.objects.size).1 arguments,
            ((σ.constructing id).bindMethod init σ.objects.size).2)]
      | none => [] := by
  let σ₁ : State := { σ with depth := σ.depth + 1 }
  have hcall : (Task.call (.class id) paren arguments).own (n + 2) σ =
      (.call (.class id) paren arguments, σ) ::
        (Task.apply (.class id) arguments).own (n + 1) σ₁ := by
    rw [Task.own_succ, Task.work, hrefusal]
    exact congrArg _ (Work.trace_last fun v σ' => ⟨.ok v σ', rfl⟩)
  have happly : (Task.applyWork (.class id) arguments σ₁).trace (Task.run n) (Task.noted n) =
      match σ.method? id initName with
      | some init =>
          [(.invoke ((σ.constructing id).bindMethod init σ.objects.size).1 arguments,
            ((σ.constructing id).bindMethod init σ.objects.size).2)]
      | none => [] := by
    have hmethod := method?_constructing σ id initName id
    unfold State.constructing at hmethod
    simp only [Task.applyWork, σ₁, hmethod]
    cases σ.method? id initName with
    | none => rfl
    | some init =>
        exact Work.trace_last fun v σ' => ⟨.ok (.object σ.objects.size) σ', rfl⟩
  rw [Task.invocations, hcall, Task.own_succ, Task.work, happly]
  cases σ.method? id initName <;> rfl

/-- The call of a class has yielded a new instance of that class, which nothing referred to before. Its
initializer was invoked on it, once, with the arguments of the call, and ended. -/
structure Constructs (n : Nat) (σ : State) (id : ClassId) (paren : Token) (arguments : List Value)
    (init : Option Function) (v : Value) (σ' : State) : Prop where
  yields : v = .object σ.objects.size
  classId : ∃ o, σ'.objects[σ.objects.size]? = some o ∧ o.classId = id
  fresh : ∀ a : Referent, a.Valid σ → ¬σ.Reaches a (.value v)
  plain : init = none → (Task.call (.class id) paren arguments).invocations n σ = []
  initialized : ∀ m, init = some m → ∃ f τ,
    (Task.call (.class id) paren arguments).invocations n σ = [(.invoke f arguments, τ)] ∧
      τ.Binds f σ.objects.size m ∧ f.isInitializer = true ∧
      τ.objects[σ.objects.size]? = some ⟨id, []⟩ ∧
      ∃ k w τ', f.apply k arguments τ = .ok w τ'

/-- What a class that is applied goes on to do. -/
theorem apply_class (σ : State) (id : ClassId) (arguments : List Value) (n : Nat) :
    (Value.class id).apply (n + 1) arguments { σ with depth := σ.depth + 1 } =
      match σ.method? id initName with
      | some init =>
          (((σ.constructing id).bindMethod init σ.objects.size).1.apply n arguments
            ((σ.constructing id).bindMethod init σ.objects.size).2).bind fun _ σ' =>
              .ok (.object σ.objects.size) σ'
      | none => .ok (.object σ.objects.size) (σ.constructing id) := by
  have hmethod := method?_constructing σ id initName id
  unfold State.constructing at hmethod
  rw [Value.apply]
  simp only [hmethod]
  cases σ.method? id initName <;> rfl

theorem Task.Prepared.constructs (hwalked : Walked V)
    (h : (Task.call (.class id) paren arguments).Prepared V σ) {n : Nat} {v : Value} {σ' : State}
    (hcall : (Value.class id).call n paren arguments σ = .ok v σ') :
    Constructs n σ id paren arguments (σ.method? id initName) v σ' := by
  obtain ⟨k, σ₁, rfl, hrefusal, happly, rfl⟩ := exists_apply_of_call hcall
  cases k with
  | zero => simp [Value.apply] at happly
  | succ k =>
      have hnew : (σ.constructing id).objects[σ.objects.size]? = some ⟨id, []⟩ :=
        Array.getElem?_push_size
      have hinvocations : (Task.call (.class id) paren arguments).invocations (k + 2) σ = _ :=
        invocations_call_class hrefusal k
      rw [apply_class] at happly
      have hfresh (a : Referent) (ha : a.Valid σ) :
          ¬σ.Reaches a (.value (.object σ.objects.size)) :=
        State.not_reaches_next h.pre.1 h.heap ha
      cases hinit : σ.method? id initName with
      | none =>
          simp only [hinit, Outcome.ok.injEq] at happly hinvocations
          obtain ⟨rfl, rfl⟩ := happly
          exact ⟨rfl, ⟨_, hnew, rfl⟩, hfresh, fun _ => hinvocations, by simp⟩
      | some init =>
          simp only [hinit] at happly hinvocations
          let τ := ((σ.constructing id).bindMethod init σ.objects.size).2
          let f := ((σ.constructing id).bindMethod init σ.objects.size).1
          obtain ⟨w, τ', hrun, hyields⟩ := Outcome.bind_eq_ok.mp happly
          cases hyields
          have hmem : (.invoke f arguments, τ) ∈
              (Task.call (.class id) paren arguments).invocations (k + 2) σ := by
            rw [hinvocations]
            exact List.mem_singleton_self _
          -- The initializer is one of the tasks of the call, so the contract holds for it.
          have hprepared : (Task.invoke f arguments).Prepared V τ :=
            h.trace hwalked (k + 2)
              ((Task.own_sublist_trace _ _ _).subset (List.mem_filter.mp hmem).1)
          have hext : τ.Extends σ₁ := (hprepared.leaves hwalked k σ₁ (by rw [Task.run, hrun]; rfl)).1
          obtain ⟨o, ho, hclass, -⟩ := hext.objects _ _ hnew
          refine ⟨rfl, ⟨o, ho, hclass⟩, hfresh, by simp, ?_⟩
          intro m hm
          cases hm
          have hbinds : τ.Binds f σ.objects.size init := State.binds_bindMethod _ init _
          refine ⟨f, τ, hinvocations, hbinds, ?_, hnew, k, w, σ₁, hrun⟩
          have hname : f.decl.name.lexeme = initName := (h.pre.1.method? hinit).2
          obtain ⟨hsound, hf, -⟩ := hprepared.pre
          exact (isInitializer_iff hwalked hsound hf hprepared.ready.2).mpr
            ⟨hname, _, hbinds.this⟩

end Classes

end Lox
