import Lox.Eval
import Lox.Proofs.Soundness.Operators

/-!
# Functions and classes

What a declaration adds to a sound state: a function closed in the scope in which it is declared, or
a class whose methods are closed in that scope, in a derived class inside one for `super`. And what
a call adds: a scope that binds every parameter.
-/

namespace Lox

open Resolution Eval

variable {T : Task → State → Prop} {V : Reach}

/-! ### Tables that are filled from a list -/

section Tables

variable {α β : Type} (key : β → Bytes) (value : β → α)

/-- Of the entries with one name the last counts. -/
theorem Bindings.lookup_foldl_insert_eq (xs : List β) (init : Bindings α) (name : Bytes) :
    (xs.foldl (fun bindings x => Bindings.insert (key x) (value x) bindings) init).lookup name =
      ((xs.reverse.find? fun x => key x = name).map value).or (init.lookup name) := by
  induction xs generalizing init with
  | nil => rfl
  | cons x xs ih =>
      rw [List.foldl_cons, ih, lookup_insert, List.reverse_cons, List.find?_append, Option.map_or,
        Option.or_assoc]
      by_cases hkey : key x = name
      · simp [hkey]
      · simp [hkey, Ne.symm hkey]

theorem Bindings.lookup_foldl_insert (xs : List β) {init : Bindings α} {name : Bytes} {a : α}
    (h : (xs.foldl (fun bindings x => Bindings.insert (key x) (value x) bindings) init).lookup name =
      some a) :
    (∃ x ∈ xs, key x = name ∧ value x = a) ∨ init.lookup name = some a := by
  rw [lookup_foldl_insert_eq, Option.or_eq_some_iff] at h
  rcases h with hlast | ⟨-, hinit⟩
  · obtain ⟨x, hx, rfl⟩ := Option.map_eq_some_iff.mp hlast
    have hmem := List.mem_of_find?_eq_some hx
    exact .inl ⟨x, List.mem_reverse.mp hmem, by simpa using List.find?_some hx, rfl⟩
  · exact .inr hinit

theorem Bindings.isSome_lookup_foldl_insert (xs : List β) {init : Bindings α} {name : Bytes}
    (h : (∃ x ∈ xs, key x = name) ∨ (init.lookup name).isSome) :
    ((xs.foldl (fun bindings x => Bindings.insert (key x) (value x) bindings) init).lookup
      name).isSome := by
  rw [lookup_foldl_insert_eq, Option.isSome_or, Option.isSome_map, Bool.or_eq_true,
    List.find?_isSome]
  simpa using h

end Tables

theorem lookup_methodTable {closure : ScopeId} {methods : List (FunctionDecl Site)} {name : Bytes}
    {f : Function} (h : (methodTable closure methods).lookup name = some f) :
    ∃ decl ∈ methods, decl.name.lexeme = name ∧ f = ⟨decl, closure, decl.name.lexeme = initName⟩ := by
  rcases Bindings.lookup_foldl_insert _ _ methods h with ⟨decl, hdecl, hname, rfl⟩ | hnil
  · exact ⟨decl, hdecl, hname, rfl⟩
  · cases hnil

/-! ### Calls -/

theorem lookup_parameters {f : Function} {arguments : List Value} {name : Bytes} {v : Value}
    (h : (parameters f arguments).lookup name = some v) :
    (∃ param ∈ f.decl.params, param.lexeme = name) ∧ v ∈ arguments := by
  rcases Bindings.lookup_foldl_insert (fun x : Token × Value => x.1.lexeme) (fun x => x.2) _ h with
    ⟨⟨param, w⟩, hmem, hname, rfl⟩ | hnil
  · exact ⟨⟨param, (List.of_mem_zip hmem).1, hname⟩, (List.of_mem_zip hmem).2⟩
  · cases hnil

theorem isSome_lookup_parameters {f : Function} {arguments : List Value}
    (hlength : f.decl.params.length = arguments.length) {param : Token}
    (hparam : param ∈ f.decl.params) : ((parameters f arguments).lookup param.lexeme).isSome := by
  obtain ⟨i, hi, rfl⟩ := List.mem_iff_getElem.mp hparam
  refine Bindings.isSome_lookup_foldl_insert (fun x : Token × Value => x.1.lexeme) (fun x => x.2) _
    (.inl ⟨(f.decl.params[i], arguments[i]), ?_, rfl⟩)
  refine List.mem_iff_getElem.mpr ⟨i, by simp [hlength]; omega, ?_⟩
  simp

/-- The scope of a function holds its parameters and lies directly inside those around it. -/
theorem scopes_foldl_define (params : List Token) {ctx : Context} {frame : Frame}
    {outer : List Frame} (h : ctx.scopes = frame :: outer) :
    ∃ frame', (params.foldl Context.define ctx).scopes = frame' :: outer ∧
      ∀ name, (frame'.lookup name).isSome →
        (∃ param ∈ params, param.lexeme = name) ∨ (frame.lookup name).isSome := by
  induction params generalizing ctx frame with
  | nil => exact ⟨frame, h, fun _ hname => .inr hname⟩
  | cons param params ih =>
      have hdefine : (ctx.define param).scopes = ((param.lexeme, true) :: frame) :: outer := by
        simp only [Context.define, Context.mark, h]
      obtain ⟨frame', hscopes, hlookup⟩ := ih hdefine
      refine ⟨frame', hscopes, fun name hname => ?_⟩
      rcases hlookup name hname with ⟨other, hother, heq⟩ | hhead
      · exact .inl ⟨other, List.mem_cons_of_mem _ hother, heq⟩
      · by_cases heq : name = param.lexeme
        · exact .inl ⟨param, List.mem_cons_self, heq.symm⟩
        · rw [Bindings.lookup_cons_of_ne heq] at hhead
          exact .inr hhead

theorem scopes_inFunction (ctx : Context) (kind : FunctionKind) (params : List Token) :
    ∃ frame, (ctx.inFunction kind params).scopes = frame :: ctx.scopes ∧
      ∀ name, frame.lookup name = some true → ∃ param ∈ params, param.lexeme = name := by
  have henter : ({ ctx with function := kind }.enter []).scopes = [] :: ctx.scopes := rfl
  obtain ⟨frame, hscopes, hlookup⟩ := scopes_foldl_define params henter
  refine ⟨frame, hscopes, fun name hname => ?_⟩
  rcases hlookup name (by rw [hname]; rfl) with hparam | hnil
  · exact hparam
  · cases hnil

@[simp]
theorem params_resolve (ctx : Context) (kind : FunctionKind) (d : FunctionDecl Unit) :
    (d.resolve ctx kind).params = d.params := by
  cases d
  rfl

@[simp]
theorem body_resolve (ctx : Context) (kind : FunctionKind) (d : FunctionDecl Unit) :
    (d.resolve ctx kind).body = Stmt.resolveAll (ctx.inFunction kind d.params) d.body := by
  cases d
  rfl

@[simp]
theorem name_resolve (ctx : Context) (kind : FunctionKind) (d : FunctionDecl Unit) :
    (d.resolve ctx kind).name = d.name := by
  cases d
  rfl

/-! ### Function statements -/

/-- A function is bound to its name right after it was made, so its closure knows it. -/
theorem State.Sound.defineFunction {σ : State} (h : σ.Sound V) {ctx : Context}
    {kind : FunctionKind} {d : FunctionDecl Unit} (hname : Plain d.name.lexeme)
    (hvisit : V.Here σ.scopes σ.env (ctx.define d.name) (.function kind d))
    (hmatches : Matches σ.scopes σ.env ctx.scopes) {isInitializer : Bool}
    (hkind : isInitializer = true ↔ kind = .initializer) :
    Follows V σ (((σ.functionValue ⟨d.resolve (ctx.define d.name) kind, σ.env, isInitializer⟩).2.define
      σ.env d.name.lexeme
      (σ.functionValue ⟨d.resolve (ctx.define d.name) kind, σ.env, isInitializer⟩).1)) := by
  let f : Function := ⟨d.resolve (ctx.define d.name) kind, σ.env, isInitializer⟩
  let v := (σ.functionValue f).1
  have hgrows : σ.Grows ((σ.functionValue f).2.define σ.env d.name.lexeme v) :=
    (σ.grows_functionValue f).trans (State.grows_define _ _ _ _)
  refine ⟨h.grow hgrows ?_ ?_ (fun c hc => .inl hc) (fun o ho => .inl ho), hgrows, rfl⟩
  · intro id name w hw
    have hbound := (σ.functionValue f).2.scopes.bound?_define σ.env d.name.lexeme v id name
    by_cases hcase : id = σ.env ∧ name = d.name.lexeme ∧ σ.env < (σ.functionValue f).2.scopes.next
    · rw [if_pos hcase] at hbound
      obtain rfl : v = w := Option.some.inj (hbound.symm.trans hw)
      obtain ⟨-, rfl, -⟩ := hcase
      exact .inr ⟨(σ.valid_functionValue f).grows (State.grows_define _ _ _ _), hname.admits _⟩
    · rw [if_neg hcase] at hbound
      exact .inl (hbound.symm.trans hw)
  · intro g hg
    rcases Array.mem_push.mp hg with hg | rfl
    · exact .inl hg
    · exact .inr ⟨ctx.define d.name, kind, d,
        hvisit.grows hgrows.scopes hmatches (length_define ctx d.name).symm, rfl, hkind,
        hmatches.define d.name v⟩

/-! ### Class statements -/

theorem Reach.Closed.method (hclosed : V.Closed T) {scopes : Scopes} {id : ScopeId} {ctx : Context}
    {ds : List (FunctionDecl Unit)} (h : V.Here scopes id ctx (.methods ds)) {d : FunctionDecl Unit}
    (hd : d ∈ ds) : ∃ later, V.Here scopes id ctx (.methods (d :: later)) := by
  induction ds with
  | nil => cases hd
  | cons first ds ih =>
      rcases List.mem_cons.mp hd with rfl | hd
      · exact ⟨ds, h⟩
      · exact ih (hclosed.here h (by simp [Place.within])) hd

theorem mem_resolveMethods {ctx : Context} {ds : List (FunctionDecl Unit)}
    {decl : FunctionDecl Site} (h : decl ∈ FunctionDecl.resolveMethods ctx ds) :
    ∃ d ∈ ds, decl = d.resolve ctx (Context.methodKind d.name) := by
  induction ds with
  | nil => simp [FunctionDecl.resolveMethods] at h
  | cons first ds ih =>
      rw [FunctionDecl.resolveMethods] at h
      rcases List.mem_cons.mp h with rfl | h
      · exact ⟨first, List.mem_cons_self, rfl⟩
      · obtain ⟨d, hd, heq⟩ := ih h
        exact ⟨d, List.mem_cons_of_mem first hd, heq⟩

/-- The scopes around the methods of a class, without the one for `this`. -/
def outerFrames (ctx : Context) (derived : Bool) : List Frame :=
  if derived then [(superName, true)] :: ctx.scopes else ctx.scopes

theorem scopes_inClass (ctx : Context) (derived : Bool) :
    (ctx.inClass derived).scopes = [(thisName, true)] :: outerFrames ctx derived := by
  cases derived <;> rfl

theorem bindable_super {σ : State} {base : ClassId} (h : base < σ.classes.size) :
    σ.Bindable [(superName, .class base)] := by
  intro name v hv
  rw [List.lookup_cons] at hv
  split at hv
  case h_1 heq =>
    cases hv
    refine ⟨h, fun hthis => ?_, fun _ => ⟨base, rfl⟩⟩
    rw [hthis] at heq
    exact absurd heq (by decide)
  case h_2 => cases hv

/-- The scope in which methods are closed is an instance of the scopes around them. -/
theorem methodScope_sound {σ : State} (h : σ.Sound V) {ctx : Context}
    (hmatches : Matches σ.scopes σ.env ctx.scopes) {superclass : Option ClassId}
    (hsuperclass : ∀ base, superclass = some base → base < σ.classes.size) :
    Follows V σ (methodScope superclass σ).2 ∧
      Matches (methodScope superclass σ).2.scopes (methodScope superclass σ).1
        (outerFrames ctx superclass.isSome) := by
  cases superclass with
  | none => exact ⟨h.follows, hmatches⟩
  | some base =>
      refine ⟨⟨h.newScope _ (bindable_super (hsuperclass base rfl)), σ.grows_newScope _ _, rfl⟩, ?_⟩
      refine hmatches.push h.nonempty fun name hname => ?_
      rw [List.lookup_cons] at hname ⊢
      split at hname
      case h_1 => simp
      case h_2 => cases hname

theorem finishClass_meets (hclosed : V.Closed T) {σ : State} (h : σ.Sound V) {ctx : Context}
    {name : Token} (hname : Plain name.lexeme) (hmatches : Matches σ.scopes σ.env ctx.scopes)
    (superclass : Option ClassId)
    (hsuperclass : ∀ base, superclass = some base → base < σ.classes.size)
    {ds : List (FunctionDecl Unit)}
    (hvisit : V.Here (methodScope superclass σ).2.scopes (methodScope superclass σ).1
      (ctx.inClass superclass.isSome) (.methods ds)) :
    (finishClass name superclass
      (FunctionDecl.resolveMethods (ctx.inClass superclass.isSome) ds) σ).Meets
        (fun c σ' => Follows V σ σ' ∧ c = .normal) fun _ σ' => Follows V σ σ' := by
  obtain ⟨hscope, houter⟩ := methodScope_sound h hmatches hsuperclass
  let closure := (methodScope superclass σ).1
  let σ₁ := (methodScope superclass σ).2
  let table := methodTable closure (FunctionDecl.resolveMethods (ctx.inClass superclass.isSome) ds)
  have hclass : ClassSound V σ₁.scopes ⟨name.lexeme, superclass, table⟩ := by
    intro used f hf
    obtain ⟨decl, hdecl, hused, rfl⟩ := lookup_methodTable hf
    obtain ⟨d, hd, rfl⟩ := mem_resolveMethods hdecl
    obtain ⟨later, hmethod⟩ := hclosed.method hvisit hd
    refine ⟨⟨_, d, later, _, hmethod, rfl, ?_, scopes_inClass _ _, houter⟩, hused⟩
    simp [Context.methodKind]
  have hnew : Follows V σ (σ₁.newClass ⟨name.lexeme, superclass, table⟩).2 :=
    hscope.trans ⟨hscope.sound.newClass hclass, σ₁.grows_newClass _, rfl⟩
  unfold finishClass
  dsimp only
  split
  case h_1 scopes hscopes =>
    obtain ⟨holder, rfl⟩ := Scopes.exists_of_assign? _ hscopes
    have hvalid : Value.Valid (σ₁.newClass ⟨name.lexeme, superclass, table⟩).2
        (.class (σ₁.newClass ⟨name.lexeme, superclass, table⟩).1) := by
      simp [State.newClass, Value.Valid]
    exact ⟨hnew.trans (hnew.sound.follows_define holder hvalid hname), rfl⟩
  case h_2 => exact hnew

end Lox
