import Lox.Proofs.Loop.States

/-!
# Steps of evaluation with spare scopes

A step that evaluates nothing further reads and changes scopes that stand in both states, however
many spare ones lie on the way. So it ends in the same way in both.
-/

namespace Lox

open Resolution Eval

theorem Scopes.FoundAlike.getAt? {φ : Placement} {scopes scopes' : Scopes} {id id' : ScopeId}
    {d d' : Nat} (h : scopes.FoundAlike φ scopes' id id' (some d) (some d'))
    (hpadded : scopes.Padded φ scopes') (n : Bytes) :
    scopes'.getAt? id' d' n = scopes.getAt? id d n := by
  cases h with
  | scope hinside h h' =>
      unfold Scopes.getAt?
      rw [h, h']
      dsimp only
      rw [hpadded.bound _ hinside]

variable {V : Context → Place → Prop} {φ : Placement} {σ σ' : State}

namespace Eval

/-! ### Variables -/

variable {site site' : Site}

theorem read_padded (h : σ.Padded V φ σ')
    (hfound : σ.scopes.FoundAlike φ σ'.scopes σ.env σ'.env site site') (t : Token) :
    (read t site σ).Padded V φ σ σ' (read t site' σ') := by
  cases hfound with
  | nowhere =>
      simp only [Eval.read, h.scopes.get?_globals]
      cases σ.scopes.get? State.globals t.lexeme with
      | some v => exact h.ok v
      | none => exact h.error _
  | scope hinside hscope hscope' =>
      simp only [Eval.read, Scopes.getAt?, hscope, hscope', h.scopes.bound _ hinside]
      exact h.ok _

theorem assign_padded (h : σ.Padded V φ σ')
    (hfound : σ.scopes.FoundAlike φ σ'.scopes σ.env σ'.env site site') (t : Token) (v : Value) :
    (assign t site v σ).Padded V φ σ σ' (assign t site' v σ') := by
  cases hfound with
  | nowhere =>
      simp only [assign, assignGlobal, Scopes.assign?_eq_map, h.scopes.holder?_globals,
        Scopes.holder?_globals_eq σ.scopes]
      by_cases hbound : (σ.scopes.bound? State.globals t.lexeme).isSome
      · rw [if_pos hbound]
        have hglobals : State.globals < σ.scopes.next := h.scopes.nonempty
        have hdefined := h.ok_define v hglobals t.lexeme v
        rwa [h.scopes.globals] at hdefined
      · rw [if_neg hbound]
        exact h.error _
  | scope hinside hscope hscope' =>
      simp only [assign, Scopes.assignAt?_eq_map, hscope, hscope']
      exact h.ok_define v hinside t.lexeme v

/-! ### Methods -/

theorem bindMethod_padded (h : σ.Padded V φ σ') {f f' : Function}
    (hf : f.Padded V φ σ.scopes σ'.scopes [thisFrame] f') (receiver : ObjectId) :
    ∃ φ₁, State.Onward φ σ σ' φ₁ (σ.bindMethod f receiver).2 (σ'.bindMethod f' receiver).2 ∧
      (σ.bindMethod f receiver).2.Padded V φ₁ (σ'.bindMethod f' receiver).2 ∧
      (σ.bindMethod f receiver).1.Padded V φ₁ (σ.bindMethod f receiver).2.scopes
        (σ'.bindMethod f' receiver).2.scopes [] (σ'.bindMethod f' receiver).1 := by
  obtain ⟨kind, d, ctx, ctx', hvisit, hdecl, hdecl', hkind, outer, outer', houter, houter',
    hbeside⟩ := hf.code
  have hbound := hbeside.push thisFrame [(thisName, .object receiver)]
  refine ⟨State.Padded.placing φ σ σ', ⟨?_, rfl, rfl⟩, ?_, ?_, hf.isInitializer, kind, d, ctx, ctx',
    hvisit, hdecl, hdecl', hkind, thisFrame :: outer, thisFrame :: outer', houter, houter', hbound⟩
  · exact Scopes.onward_push φ σ.scopes σ'.scopes (some f.closure) (some f'.closure) _
  · exact h.newScope f.closure f'.closure _
  · exact (Function.update_self σ.scopes.next σ'.scopes.next φ).symm

theorem boundMethod_padded (h : σ.Padded V φ σ') {f f' : Function}
    (hf : f.Padded V φ σ.scopes σ'.scopes [thisFrame] f') (receiver : ObjectId) :
    Outcome.Padded V φ σ σ' (.ok (σ.boundMethod f receiver).1 (σ.boundMethod f receiver).2)
      (.ok (σ'.boundMethod f' receiver).1 (σ'.boundMethod f' receiver).2) := by
  obtain ⟨φ₁, honward, hstate, hbound⟩ := bindMethod_padded h hf receiver
  obtain ⟨hid, hadded⟩ := hstate.newFunction hbound
  have hvalue : (σ'.boundMethod f' receiver).1 = (σ.boundMethod f receiver).1 :=
    congrArg Value.function hid
  rw [hvalue]
  exact .ok ⟨honward.scopes, honward.env, honward.env'⟩ hadded

end Eval

theorem State.Padded.lockstep (h : σ.Padded V φ σ') :
    Lockstep (Function.Padded V φ σ.scopes σ'.scopes []) (Method.Padded V φ σ.scopes σ'.scopes)
      (Outcome.Padded V φ σ σ') σ σ' where
  toSideBySide := h.toSideBySide
  ok v := h.ok v
  fail t cause := h.error ⟨t, cause⟩
  broken := .broken
  bound receiver _ _ hf := boundMethod_padded h hf receiver
  ticked _ _ := .ok (.of_scopes φ rfl rfl rfl rfl) { h with clock := rfl }

namespace Eval

/-- No spare scope lies between `this` and `super`, so that of `this` is one scope nearer on both
chains. -/
theorem super_padded (h : σ.Padded V φ σ') {d d' : Nat}
    (hreceiver : Receiver φ σ.scopes σ'.scopes σ.env σ'.env d d') (method : Token) :
    (super (some (d + 1)) method σ).Padded V φ σ σ' (super (some (d' + 1)) method σ') := by
  refine h.lockstep.super ?_ ?_ method
  · exact hreceiver.super.getAt? h.scopes superName
  · exact hreceiver.this.getAt? h.scopes thisName

/-! ### Calls -/

theorem refusal?_padded (h : σ.Padded V φ σ') (callee : Value) (given : Nat) :
    refusal? callee given σ' = refusal? callee given σ :=
  h.toSideBySide.refusal? Function.Padded.sameSignature Function.Padded.sameSignature callee given

/-- An initializer is closed in the scope of its receiver, which stands in both states. -/
theorem result_padded (h : σ.Padded V φ σ') {f f' : Function} (hclosure : f'.closure = φ f.closure)
    (hinside : f.closure < σ.scopes.next) (hinitializer : f'.isInitializer = f.isInitializer)
    (c : Completion) : (result f c σ).Padded V φ σ σ' (result f' c σ') := by
  have hfound : σ.scopes.FoundAlike φ σ'.scopes f.closure f'.closure (some 0) (some 0) := by
    rw [hclosure]
    exact .scope hinside rfl rfl
  simp only [result, hinitializer, hfound.getAt? h.scopes]
  split
  · split
    · exact h.ok _
    · exact .broken
  · split
    · exact h.ok _
    · exact h.ok _

/-! ### Classes -/

theorem methodTable_padded (hwalked : Walked V) {scopes scopes' : Scopes} {ctx ctx' : Context}
    {closure closure' : ScopeId} (hclosure : closure' = φ closure)
    (henclosed : Enclosed φ scopes scopes' [thisFrame] ctx ctx' closure closure')
    {ds : List (FunctionDecl Unit)} (hvisit : V ctx' (.methods ds)) (n : Bytes) :
    Option.Rel (Function.Padded V φ scopes scopes' [thisFrame])
      ((methodTable closure (FunctionDecl.resolveMethods ctx ds)).lookup n)
      ((methodTable closure' (FunctionDecl.resolveMethods ctx' ds)).lookup n) := by
  refine Paired.methodTable ?_ n
  induction ds with
  | nil => exact .nil
  | cons d ds ih =>
      have hd : V ctx' (.function (Context.methodKind d.name) d) :=
        hwalked.next hvisit (by simp [Place.next])
      refine .cons ⟨?_, ?_⟩ (ih (hwalked.next hvisit (by simp [Place.next])))
      · rw [name_resolve, name_resolve]
      · exact ⟨hclosure, by rw [name_resolve, name_resolve], _, d, ctx, ctx', hd, rfl, rfl, henclosed⟩

/-- Methods are closed in the scope of their class or, in a derived class, in one for `super`. -/
theorem methodScope_padded (h : σ.Padded V φ σ') {ctx ctx' : Context}
    (hinside : σ.Inside φ σ' ctx ctx') (hstands : σ'.env = φ σ.env) (superclass : Option ClassId) :
    ∃ φ₁, State.Onward φ σ σ' φ₁ (methodScope superclass σ).2 (methodScope superclass σ').2 ∧
      (methodScope superclass σ).2.Padded V φ₁ (methodScope superclass σ').2 ∧
      (methodScope superclass σ').1 = φ₁ (methodScope superclass σ).1 ∧
      Enclosed φ₁ (methodScope superclass σ).2.scopes (methodScope superclass σ').2.scopes
        [thisFrame] (ctx.inClass superclass.isSome) (ctx'.inClass superclass.isSome)
        (methodScope superclass σ).1 (methodScope superclass σ').1 := by
  cases superclass with
  | none =>
      exact ⟨φ, .refl φ σ σ', h, hstands, rfl, ctx.scopes, ctx'.scopes, rfl, rfl, hinside.scopes⟩
  | some base =>
      have hsuper := hinside.scopes.push [(superName, true)] [(superName, .class base)]
      refine ⟨State.Padded.placing φ σ σ', ⟨?_, rfl, rfl⟩, ?_, ?_, rfl, _, _, rfl, rfl, hsuper⟩
      · exact Scopes.onward_push φ σ.scopes σ'.scopes (some σ.env) (some σ'.env) _
      · exact h.newScope σ.env σ'.env _
      · exact (Function.update_self σ.scopes.next σ'.scopes.next φ).symm

theorem finishClass_padded (hwalked : Walked V) (h : σ.Padded V φ σ') {ctx ctx' : Context}
    (hinside : σ.Inside φ σ' ctx ctx') (hstands : σ'.env = φ σ.env) {name : Token}
    (hbound : (σ.scopes.bound? σ.env name.lexeme).isSome) (superclass : Option ClassId)
    {ds : List (FunctionDecl Unit)} (hvisit : V (ctx'.inClass superclass.isSome) (.methods ds)) :
    (finishClass name superclass
        (FunctionDecl.resolveMethods (ctx.inClass superclass.isSome) ds) σ).Padded V φ σ σ'
      (finishClass name superclass
        (FunctionDecl.resolveMethods (ctx'.inClass superclass.isSome) ds) σ') := by
  obtain ⟨φ₁, honward, hscope, hclosure, henclosed⟩ :=
    methodScope_padded h hinside hstands superclass
  have hclass : Class.SideBySide (Method.Padded V φ₁ (methodScope superclass σ).2.scopes
      (methodScope superclass σ').2.scopes)
      ⟨name.lexeme, superclass, methodTable (methodScope superclass σ).1
        (FunctionDecl.resolveMethods (ctx.inClass superclass.isSome) ds)⟩
      ⟨name.lexeme, superclass, methodTable (methodScope superclass σ').1
        (FunctionDecl.resolveMethods (ctx'.inClass superclass.isSome) ds)⟩ :=
    ⟨rfl, rfl, methodTable_padded hwalked hclosure henclosed hvisit⟩
  obtain ⟨-, hadded⟩ := hscope.newClass hclass
  have henv : σ.env < σ.scopes.next := hinside.scopes.inside h.scopes.nonempty
  have hbound' : (σ'.scopes.bound? σ'.env name.lexeme).isSome := by
    rw [hstands, h.scopes.bound _ henv]
    exact hbound
  have hsize : σ'.classes.size = σ.classes.size := h.classes.size
  have hstands₁ : σ'.env = φ₁ σ.env := hstands.trans (honward.scopes.same σ.env henv).symm
  rw [finishClass_eq hbound, finishClass_eq hbound', hstands₁, hsize]
  have hdefined := hadded.define (Nat.lt_of_lt_of_le henv honward.scopes.grows.next) name.lexeme
    (.class σ.classes.size)
  refine .ok ⟨?_, honward.env, honward.env'⟩ hdefined
  exact honward.scopes.trans (Scopes.onward_define φ₁ _ _ _ _ _ _)

end Eval

end Lox
