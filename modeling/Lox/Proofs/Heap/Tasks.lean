import Lox.Proofs.Eval.Leaves
import Lox.Proofs.Heap.Receivers
import Lox.Proofs.Soundness.Statements

/-!
# Receivers along a run

Code runs in scopes of blocks and functions, never directly in one for `this` or `super`, and a
program declares and assigns no name that is reserved. So what a run adds to a sound state leaves
receivers as they are, and methods are bound only to instances that have them.
-/

namespace Lox

open Resolution Eval

variable {V : Context → Place → Prop}

/-- The innermost scope is that of a block or a function, or the globals. -/
structure State.InBody (σ : State) : Prop where
  env : σ.env < σ.scopes.next
  unreserved : ∀ name, Reserved name → σ.scopes.bound? σ.env name = none

theorem State.InBody.extends {σ σ' : State} (h : σ.InBody) (hext : σ.Extends σ')
    (henv : σ'.env = σ.env) : σ'.InBody where
  env := by
    rw [henv]
    exact Nat.lt_of_lt_of_le h.env hext.scopes.next
  unreserved name hname := by
    rw [henv, hext.reserved _ h.env name hname]
    exact h.unreserved name hname

def Task.Homed (σ : State) : Task → Prop
  | .invoke f _ => σ.FunctionHome f
  | .scope _ _ bindings => ∀ name, Reserved name → bindings.lookup name = none
  | _ => True

def receiving : Conduct where
  ready t σ := σ.InBody ∧ t.Homed σ
  moves := State.Extends
  keeps := State.Heap

/-! ### Steps of the conduct -/

section Rules

variable {α : Type} {before σ : State}

theorem receiving_ask {t : Task} {next : t.Answer → State → Work α} (hext : before.Extends σ)
    (hheap : σ.Heap) (hbody : σ.InBody) (hhomed : t.Homed σ)
    (hnext : ∀ a σ', (soundness V).ok t σ a σ' → σ'.Heap → σ'.InBody →
      (next a σ').Conforms (soundness V) receiving σ') :
    (Work.ask t σ next).Conforms (soundness V) receiving before := by
  refine Work.conforms_ask State.Extends.refl hext hheap ⟨hbody, hhomed⟩ ?_
  intro a σ' hok hext' hheap'
  exact hnext a σ' hok hheap' (hbody.extends hext' hok.1.env)

theorem receiving_answer {t : Task} (hheap : σ.Heap) (hbody : σ.InBody) (hhomed : t.Homed σ) :
    (Work.answer t σ).Conforms (soundness V) receiving σ :=
  receiving_ask (.refl σ) hheap hbody hhomed fun _ σ' _ hheap' _ =>
    Outcome.leaves_ok.mpr ⟨.refl σ', hheap'⟩

theorem receiving_unchanged {o : Outcome α} (hheap : σ.Heap) (h : o.Leaves (· = σ)) :
    (Work.done o).Conforms (soundness V) receiving σ := by
  refine h.mono fun σ' hσ' => ?_
  subst hσ'
  exact ⟨.refl σ', hheap⟩

theorem receiving_ok {a : α} (hheap : σ.Heap) :
    (Work.done (.ok a σ)).Conforms (soundness V) receiving σ :=
  receiving_unchanged hheap (Outcome.leaves_ok.mpr rfl)

theorem receiving_define {a : α} (hheap : σ.Heap) (id : ScopeId) {name : Bytes}
    (hname : Plain name) (v : Value) :
    (Work.done (.ok a (σ.define id name v))).Conforms (soundness V) receiving σ :=
  Outcome.leaves_ok.mpr ⟨σ.extends_define id hname v, hheap.define id hname v⟩

end Rules

/-! ### Uses of names and properties -/

theorem Scopes.parent?_of_ancestor? {scopes : Scopes} {id inner outer : ScopeId} {d : Nat}
    (hinner : scopes.ancestor? id d = some inner) (houter : scopes.ancestor? id (d + 1) = some outer) :
    scopes.parent? inner = some outer := by
  induction d generalizing id with
  | zero =>
      obtain rfl : id = inner := Option.some.inj hinner
      exact houter
  | succ d ih =>
      cases hparent : scopes.parent? id with
      | none =>
          rw [ancestor?, climb, hparent] at hinner
          cases d <;> simp [climb] at hinner
      | some parent =>
          rw [scopes.ancestor?_succ hparent] at hinner houter
          exact ih hinner houter

/-- Around the use of `super` lies the scope of a receiver, directly inside one for `super`. -/
theorem State.Sound.super_scopes {σ : State} (h : σ.Sound V) {ctx : Context}
    {keyword method : Token} (hchecked : Place.Checked ctx (.expr (.super keyword () method)))
    (hmatches : Matches σ.scopes σ.env ctx.scopes) :
    ∃ d inner outer receiver base, ctx.locate keyword.lexeme = some (d + 1) ∧
      ReadyAt thisName d ctx.scopes ∧ ReadyAt superName (d + 1) ctx.scopes ∧
      σ.scopes.ancestor? σ.env d = some inner ∧ σ.scopes.ancestor? σ.env (d + 1) = some outer ∧
      σ.scopes.bound? inner thisName = some (.object receiver) ∧
      σ.scopes.bound? outer superName = some (.class base) := by
  obtain ⟨d, hlocate, hthis, hsuper⟩ := hchecked.super
  obtain ⟨inner, v, hinner, -, hv⟩ := hmatches.readyAt hthis
  obtain ⟨outer, w, houter, -, hw⟩ := hmatches.readyAt hsuper
  obtain ⟨-, hobject, -⟩ := h.bound inner thisName v hv
  obtain ⟨receiver, rfl⟩ := hobject rfl
  obtain ⟨-, -, hclass⟩ := h.bound outer superName w hw
  obtain ⟨base, rfl⟩ := hclass rfl
  exact ⟨d, inner, outer, receiver, base, hlocate, hthis, hsuper, hinner, houter, hv, hw⟩

section Uses

variable {σ : State}

theorem receiving_assign (hheap : σ.Heap) {name : Token} (hname : Plain name.lexeme) (site : Site)
    (v : Value) : (Work.done (assign name site v σ)).Conforms (soundness V) receiving σ := by
  refine (leaves_assign name site v).mono fun σ' hσ' => ?_
  rcases hσ' with rfl | ⟨id, rfl⟩
  · exact ⟨.refl _, hheap⟩
  · exact ⟨σ.extends_define id hname v, hheap.define id hname v⟩

theorem receiving_get (hheap : σ.Heap) (v : Value) (name : Token) :
    (Work.done (Eval.get v name σ)).Conforms (soundness V) receiving σ := by
  refine (leaves_get v name).mono fun σ' hσ' => ?_
  rcases hσ' with rfl | ⟨id, o, f, -, ho, hf, rfl⟩
  · exact ⟨.refl _, hheap⟩
  · obtain ⟨owner, hoffers⟩ := State.offers_of_method? ho (fun _ h => h) hf
    exact ⟨σ.extends_boundMethod f id, hheap.boundMethod hoffers⟩

theorem receiving_super (h : σ.Sound V) (hheap : σ.Heap) {ctx : Context} {keyword method : Token}
    (hchecked : Place.Checked ctx (.expr (.super keyword () method)))
    (hmatches : Matches σ.scopes σ.env ctx.scopes) :
    (Work.done (super (ctx.locate keyword.lexeme) method σ)).Conforms (soundness V) receiving σ := by
  obtain ⟨d, inner, outer, receiver, base, hlocate, -, -, hinner, houter, hthis, hsuper⟩ :=
    h.super_scopes hchecked hmatches
  refine (leaves_super _ method).mono fun σ' hσ' => ?_
  rcases hσ' with rfl | ⟨base', receiver', f, hbase', hreceiver', hf, rfl⟩
  · exact ⟨.refl _, hheap⟩
  · simp only [hlocate, Option.getD_some, Nat.add_sub_cancel] at hbase' hreceiver'
    rw [Scopes.getAt?_of_bound? houter hsuper] at hbase'
    rw [Scopes.getAt?_of_bound? hinner hthis] at hreceiver'
    cases hbase'
    cases hreceiver'
    -- The receiver has the method around from a class whose superclass is asked here.
    obtain ⟨receiver', owner, m, c, heq, hoffers, -, hc, hbase⟩ :=
      hheap.superclass hthis (Scopes.parent?_of_ancestor? hinner houter) hsuper
    cases heq
    obtain ⟨o, ho, hinherits⟩ := hoffers.inherits
    obtain ⟨owner', hoffers'⟩ := State.offers_of_method? ho
      (fun _ hother => hinherits.trans (.base hc hbase hother)) hf
    exact ⟨σ.extends_boundMethod f receiver, hheap.boundMethod hoffers'⟩

end Uses

/-! ### Expressions -/

theorem receiving_evalWork (hwalked : Walked V) {σ : State} (h : σ.Sound V) (hheap : σ.Heap)
    (hbody : σ.InBody) {ctx : Context} {e : Expr Unit} (hvisit : V ctx (.expr e))
    (hmatches : Matches σ.scopes σ.env ctx.scopes) :
    (Task.evalWork (e.resolve ctx) σ).Conforms (soundness V) receiving σ := by
  have hchecked := hwalked.checked hvisit
  cases e with
  | assign name site value =>
      simp only [Expr.resolve, Task.evalWork]
      refine receiving_ask (.refl σ) hheap hbody trivial ?_
      intro v σ₁ _ hheap₁ _
      exact receiving_assign hheap₁ hchecked.wellFormed.fine _ v
  | binary left operator right =>
      simp only [Expr.resolve, Task.evalWork]
      refine receiving_ask (.refl σ) hheap hbody trivial ?_
      intro a σ₁ _ hheap₁ hbody₁
      refine receiving_ask (.refl σ₁) hheap₁ hbody₁ trivial ?_
      intro b σ₂ _ hheap₂ _
      exact receiving_unchanged hheap₂ (operates_binary operator a b).leaves
  | call callee paren arguments =>
      simp only [Expr.resolve, Task.evalWork]
      refine receiving_ask (.refl σ) hheap hbody trivial ?_
      intro f σ₁ _ hheap₁ hbody₁
      refine receiving_ask (.refl σ₁) hheap₁ hbody₁ trivial ?_
      intro vs σ₂ _ hheap₂ hbody₂
      exact receiving_answer hheap₂ hbody₂ trivial
  | get object name =>
      simp only [Expr.resolve, Task.evalWork]
      refine receiving_ask (.refl σ) hheap hbody trivial ?_
      intro v σ₁ _ hheap₁ _
      exact receiving_get hheap₁ v name
  | group inner => exact receiving_answer hheap hbody trivial
  | literal value => exact receiving_ok hheap
  | logical left operator right =>
      simp only [Expr.resolve, Task.evalWork]
      refine receiving_ask (.refl σ) hheap hbody trivial ?_
      intro a σ₁ _ hheap₁ hbody₁
      split
      · exact receiving_ok hheap₁
      · exact receiving_answer hheap₁ hbody₁ trivial
  | set object name value =>
      simp only [Expr.resolve, Task.evalWork]
      refine receiving_ask (.refl σ) hheap hbody trivial ?_
      intro o σ₁ _ hheap₁ hbody₁
      cases o with
      | object id =>
          refine receiving_ask (.refl σ₁) hheap₁ hbody₁ trivial ?_
          intro v σ₂ _ hheap₂ _
          exact Outcome.leaves_ok.mpr
            ⟨σ₂.extends_setField id name.lexeme v, hheap₂.setField id name.lexeme v⟩
      | _ => exact receiving_unchanged hheap₁ (leaves_fail _ _)
  | «super» keyword site method => exact receiving_super h hheap hchecked hmatches
  | this keyword site => exact receiving_unchanged hheap (leaves_read keyword _)
  | unary operator operand =>
      simp only [Expr.resolve, Task.evalWork]
      refine receiving_ask (.refl σ) hheap hbody trivial ?_
      intro v σ₁ _ hheap₁ _
      exact receiving_unchanged hheap₁ (operates_unary operator v).leaves
  | read name site => exact receiving_unchanged hheap (leaves_read name _)

theorem receiving_evalAll {σ : State} (hheap : σ.Heap) (hbody : σ.InBody)
    (es : List (Expr Site)) :
    (Task.work (.evalAll es) σ).Conforms (soundness V) receiving σ := by
  cases es with
  | nil => exact receiving_ok hheap
  | cons e es =>
      refine receiving_ask (.refl σ) hheap hbody trivial ?_
      intro v σ₁ _ hheap₁ hbody₁
      refine receiving_ask (.refl σ₁) hheap₁ hbody₁ trivial ?_
      intro vs σ₂ _ hheap₂ _
      exact receiving_ok hheap₂

/-! ### Calls -/

theorem receiving_call {σ : State} (hheap : σ.Heap) (hbody : σ.InBody) (callee : Value)
    (paren : Token) (arguments : List Value) :
    (Task.work (.call callee paren arguments) σ).Conforms (soundness V) receiving σ := by
  have hdepth (σ : State) (depth : Nat) : σ.Extends { σ with depth := depth } :=
    .of_eq rfl rfl rfl rfl
  have hkept {σ : State} (h : σ.Heap) (depth : Nat) : ({ σ with depth := depth } : State).Heap :=
    h.of_eq rfl rfl rfl rfl
  simp only [Task.work]
  split
  · exact receiving_unchanged hheap (leaves_fail _ _)
  · refine ⟨⟨hdepth σ _, hkept hheap _, hbody.extends (hdepth σ _) rfl, trivial⟩,
      fun σ' _ hheap' => ⟨⟨hdepth σ' _, hkept hheap' _⟩, fun v _ => ?_⟩⟩
    exact receiving_ok (hkept hheap' _)

theorem receiving_applyWork {σ : State} (hheap : σ.Heap) (hbody : σ.InBody) (callee : Value)
    (arguments : List Value) :
    (Task.applyWork callee arguments σ).Conforms (soundness V) receiving σ := by
  cases callee with
  | function id =>
      simp only [Task.applyWork]
      split
      case h_1 f hf =>
        exact receiving_answer hheap hbody (hheap.functions f (Array.mem_of_getElem? hf))
      case h_2 => exact receiving_unchanged hheap (Outcome.leaves_broken.mpr rfl)
  | clock =>
      refine leaves_readClock.mono fun σ' hσ' => ?_
      subst hσ'
      exact ⟨σ.extends_tick, hheap.tick⟩
  | «class» id =>
      let σ₁ := (σ.newObject ⟨id, []⟩).2
      have hext : σ.Extends σ₁ := σ.extends_newObject _
      have hheap₁ : σ₁.Heap := hheap.newObject _
      have hobject : σ₁.objects[(σ.newObject ⟨id, []⟩).1]? = some ⟨id, []⟩ :=
        Array.getElem?_push_size
      simp only [Task.applyWork]
      split
      case h_1 init hinit =>
        obtain ⟨owner, hoffers⟩ := State.offers_of_method? hobject (fun _ h => h) hinit
        obtain ⟨hheap₂, hhome⟩ := hheap₁.bindMethod hoffers
        have hext₂ : σ.Extends (σ₁.bindMethod init (σ.newObject ⟨id, []⟩).1).2 :=
          hext.trans (σ₁.extends_newScope _ _)
        refine receiving_ask hext₂ hheap₂ (hbody.extends hext₂ rfl) hhome ?_
        intro v σ₃ _ hheap₃ _
        exact receiving_ok hheap₃
      case h_2 => exact Outcome.leaves_ok.mpr ⟨hext, hheap₁⟩
  | nil | bool b | num x | str s | object id =>
      exact receiving_unchanged hheap (Outcome.leaves_broken.mpr rfl)

theorem receiving_invoke (hwalked : Walked V) {σ : State} (hheap : σ.Heap) (hbody : σ.InBody)
    {f : Function} (hf : FunctionSound V σ.scopes f) (arguments : List Value) :
    (Task.work (.invoke f arguments) σ).Conforms (soundness V) receiving σ := by
  obtain ⟨ctx, kind, d, hvisit, hdecl, -⟩ := hf
  have hplain : ∀ param ∈ d.params, Plain param.lexeme := (hwalked.checked hvisit).wellFormed.fine
  have hbindings : ∀ name, Reserved name → (parameters f arguments).lookup name = none := by
    intro name hname
    refine Option.eq_none_iff_forall_ne_some.mpr fun v hv => ?_
    obtain ⟨⟨param, hparam, rfl⟩, -⟩ := lookup_parameters hv
    rw [hdecl, params_resolve] at hparam
    exact (hplain param hparam).ne_of_reserved hname rfl
  refine receiving_ask (.refl σ) hheap hbody hbindings ?_
  intro c σ₁ _ hheap₁ _
  exact receiving_unchanged hheap₁ (leaves_result f c)

/-! ### Statements -/

theorem receiving_scope {σ : State} (h : σ.Sound V) (hheap : σ.Heap)
    {body : List (Stmt Site)} {parent : ScopeId} {bindings : Bindings Value}
    (hready : ScopeReady V σ body parent bindings)
    (hbindings : ∀ name, Reserved name → bindings.lookup name = none) :
    (Task.work (.scope body parent bindings) σ).Conforms (soundness V) receiving σ := by
  obtain ⟨ctx, p, -, -, -, -, -, -, -, hmatches, -, -⟩ := hready
  have hparent : parent < σ.scopes.next := hmatches.lt_next h.nonempty
  let σ₁ := (σ.newScope parent bindings).2
  have hheap₁ : σ₁.Heap := by
    refine hheap.newScope hparent fun v hv => ?_
    rw [hbindings thisName (.inl rfl)] at hv
    cases hv
  have hext₁ : σ.Extends (σ.enter parent bindings) :=
    (σ.extends_newScope parent bindings).trans (.of_eq rfl rfl rfl rfl)
  have hbody₁ : (σ.enter parent bindings).InBody := by
    refine ⟨?_, fun name hname => ?_⟩
    · have hnext := σ.scopes.next_push (some parent) bindings
      exact Nat.lt_of_lt_of_eq (Nat.lt_succ_self _) hnext.symm
    · have hbound := σ.scopes.bound?_push (some parent) bindings σ.scopes.next name
      rw [if_pos rfl, hbindings name hname] at hbound
      exact hbound
  refine ⟨⟨hext₁, hheap₁.of_eq rfl rfl rfl rfl, hbody₁, trivial⟩, fun σ' _ hheap' => ?_⟩
  have hleft : ({ σ' with env := σ.env } : State).Heap := hheap'.of_eq rfl rfl rfl rfl
  exact ⟨⟨.of_eq rfl rfl rfl rfl, hleft⟩, fun c _ => receiving_ok hleft⟩

theorem State.Sound.valid_of_read {σ : State} (h : σ.Sound V) {name : Token} {site : Site}
    {v : Value} {σ' : State} (hread : read name site σ = .ok v σ') : v.Valid σ := by
  cases site with
  | none =>
      simp only [Eval.read, Scopes.get?_of_outermost _ h.outermost] at hread
      cases hbound : σ.scopes.bound? State.globals name.lexeme with
      | none => simp [hbound] at hread
      | some w =>
          simp only [hbound, Outcome.ok.injEq] at hread
          exact hread.1 ▸ (h.bound _ _ w hbound).1
  | some distance =>
      simp only [Eval.read, Scopes.getAt?] at hread
      cases hscope : σ.scopes.ancestor? σ.env distance with
      | none => simp [hscope] at hread
      | some scope =>
          simp only [hscope, Outcome.ok.injEq] at hread
          cases hbound : σ.scopes.bound? scope name.lexeme with
          | none =>
              rw [hbound] at hread
              exact hread.1 ▸ trivial
          | some w =>
              rw [hbound] at hread
              exact hread.1 ▸ (h.bound _ _ w hbound).1

/-- A class is made with methods whose closure binds `super` to its superclass. -/
theorem withClass_heap {σ : State} (hheap : σ.Heap) (hbody : σ.InBody) (name : Token)
    {superclass : Option ClassId} (hbase : ∀ base, superclass = some base → base < σ.classes.size)
    (methods : List (FunctionDecl Site)) :
    σ.Extends (withClass name superclass methods σ) ∧ (withClass name superclass methods σ).Heap := by
  have hmade {closure : ScopeId} {σ₁ : State} (hext : σ.Extends σ₁) (hheap₁ : σ₁.Heap)
      (hbase₁ : ∀ base, superclass = some base → base < σ₁.classes.size)
      (hhome : ∀ decl isInitializer, σ₁.MethodHome
        ⟨name.lexeme, superclass, methodTable closure methods⟩ ⟨decl, closure, isInitializer⟩) :
      σ.Extends (σ₁.newClass ⟨name.lexeme, superclass, methodTable closure methods⟩).2 ∧
        (σ₁.newClass ⟨name.lexeme, superclass, methodTable closure methods⟩).2.Heap := by
    refine ⟨hext.trans (σ₁.extends_newClass _), hheap₁.newClass hbase₁ fun used m hm => ?_⟩
    obtain ⟨decl, -, -, rfl⟩ := lookup_methodTable hm
    exact hhome decl _
  cases superclass with
  | none =>
      refine hmade (.refl σ) hheap hbase fun decl isInitializer => ⟨hbody.env, ?_, ?_⟩
      · exact hbody.unreserved thisName (.inl rfl)
      · exact hbody.unreserved superName (.inr rfl)
  | some base =>
      have hthis : List.lookup thisName [(superName, Value.class base)] = none := by
        rw [List.lookup_cons, show (thisName == superName) = false by decide]
        rfl
      have hbound (used : Bytes) := σ.scopes.bound?_push (some σ.env) [(superName, .class base)]
        σ.scopes.next used
      simp only [↓reduceIte] at hbound
      refine hmade (σ.extends_newScope _ _) (hheap.newScope hbody.env fun v hv => ?_) hbase
        fun decl isInitializer => ⟨?_, ?_, ?_⟩
      · rw [hthis] at hv
        cases hv
      · have hnext := σ.scopes.next_push (some σ.env) [(superName, .class base)]
        exact Nat.lt_of_lt_of_eq (Nat.lt_succ_self _) hnext.symm
      · exact (hbound thisName).trans hthis
      · exact (hbound superName).trans (by simp)

theorem receiving_class {σ : State} (h : σ.Sound V) (hheap : σ.Heap) (hbody : σ.InBody)
    {name : Token} (hname : Plain name.lexeme) (superclass : Option (Token × Site))
    (methods : List (FunctionDecl Site)) :
    (Task.execWork (.class name superclass methods) σ).Conforms (soundness V) receiving σ := by
  let σ₁ := σ.define σ.env name.lexeme .nil
  have hext₁ : σ.Extends σ₁ := σ.extends_define σ.env hname .nil
  have hheap₁ : σ₁.Heap := hheap.define σ.env hname .nil
  have hsound₁ : σ₁.Sound V := h.define σ.env trivial (hname.admits _)
  refine (leaves_classWork name superclass methods).mono fun σ' hσ' => ?_
  rcases hσ' with rfl | ⟨base, hbase, hσ'⟩
  · exact ⟨hext₁, hheap₁⟩
  · have hvalid : ∀ id, base = some id → id < σ₁.classes.size := by
      intro id hid
      obtain ⟨use, -, hread⟩ := hbase id hid
      exact hsound₁.valid_of_read hread
    obtain ⟨hext₂, hheap₂⟩ := withClass_heap hheap₁ (hbody.extends hext₁ rfl) name hvalid methods
    rcases hσ' with rfl | ⟨id, v, rfl⟩
    · exact ⟨hext₁.trans hext₂, hheap₂⟩
    · exact ⟨(hext₁.trans hext₂).trans (State.extends_define _ id hname v),
        hheap₂.define id hname v⟩

theorem receiving_function {σ : State} (hheap : σ.Heap) (hbody : σ.InBody)
    {decl : FunctionDecl Site} (hname : Plain decl.name.lexeme) :
    (Task.execWork (.function decl) σ).Conforms (soundness V) receiving σ := by
  have hhome : σ.FunctionHome ⟨decl, σ.env, false⟩ := by
    refine ⟨hbody.env, fun v hv => ?_⟩
    rw [hbody.unreserved thisName (.inl rfl)] at hv
    cases hv
  refine Outcome.leaves_ok.mpr ⟨?_, (hheap.functionValue hhome).define _ hname _⟩
  exact (σ.extends_functionValue _).trans (State.extends_define _ _ hname _)

theorem receiving_execWork (hwalked : Walked V) {σ : State} (h : σ.Sound V) (hheap : σ.Heap)
    (hbody : σ.InBody) {ctx : Context} {s : Stmt Unit} (hvisit : V ctx (.stmt s)) :
    (Task.execWork (s.resolve ctx) σ).Conforms (soundness V) receiving σ := by
  have hfine : Place.FineStmt s := (hwalked.checked hvisit).wellFormed.fine
  cases s with
  | block body =>
      exact receiving_answer hheap hbody fun name _ => rfl
  | «class» name base ds => exact receiving_class h hheap hbody hfine _ _
  | expr e =>
      simp only [Stmt.resolve, Task.execWork]
      exact receiving_ask (.refl σ) hheap hbody trivial fun _ _ _ hheap₁ _ => receiving_ok hheap₁
  | function d =>
      have hname : Plain (d.resolve (ctx.define d.name) .function).name.lexeme := by
        rw [name_resolve]
        exact hfine
      exact receiving_function hheap hbody hname
  | ifThen condition thenBranch =>
      simp only [Stmt.resolve, Task.execWork]
      refine receiving_ask (.refl σ) hheap hbody trivial ?_
      intro v σ₁ _ hheap₁ hbody₁
      split
      · exact receiving_answer hheap₁ hbody₁ trivial
      · exact receiving_ok hheap₁
  | ifElse condition thenBranch elseBranch =>
      simp only [Stmt.resolve, Task.execWork]
      refine receiving_ask (.refl σ) hheap hbody trivial ?_
      intro v σ₁ _ hheap₁ hbody₁
      split
      · exact receiving_answer hheap₁ hbody₁ trivial
      · exact receiving_answer hheap₁ hbody₁ trivial
  | print e =>
      simp only [Stmt.resolve, Task.execWork]
      refine receiving_ask (.refl σ) hheap hbody trivial ?_
      intro v σ₁ _ hheap₁ _
      exact Outcome.leaves_ok.mpr ⟨.of_eq rfl rfl rfl rfl, hheap₁.of_eq rfl rfl rfl rfl⟩
  | «return» keyword value =>
      cases value with
      | none => exact receiving_ok hheap
      | some e =>
          simp only [Stmt.resolve, Option.map_some, Task.execWork]
          exact receiving_ask (.refl σ) hheap hbody trivial fun _ _ _ hheap₁ _ =>
            receiving_ok hheap₁
  | var name init =>
      cases init with
      | none => exact receiving_define hheap σ.env hfine .nil
      | some e =>
          simp only [Stmt.resolve, Option.map_some, Task.execWork]
          refine receiving_ask (.refl σ) hheap hbody trivial ?_
          intro v σ₁ _ hheap₁ _
          exact receiving_define hheap₁ σ₁.env hfine v
  | «while» condition body => exact receiving_answer hheap hbody trivial

theorem receiving_execAll {σ : State} (hheap : σ.Heap) (hbody : σ.InBody)
    (ss : List (Stmt Site)) :
    (Task.work (.execAll ss) σ).Conforms (soundness V) receiving σ := by
  cases ss with
  | nil => exact receiving_ok hheap
  | cons s ss =>
      refine receiving_ask (.refl σ) hheap hbody trivial ?_
      intro c σ₁ _ hheap₁ hbody₁
      cases c with
      | normal => exact receiving_answer hheap₁ hbody₁ trivial
      | returned v => exact receiving_ok hheap₁

theorem receiving_loop {σ : State} (hheap : σ.Heap) (hbody : σ.InBody) (condition : Expr Site)
    (body : Stmt Site) :
    (Task.work (.loop condition body) σ).Conforms (soundness V) receiving σ := by
  refine receiving_ask (.refl σ) hheap hbody trivial ?_
  intro v σ₁ _ hheap₁ hbody₁
  split
  · refine receiving_ask (.refl σ₁) hheap₁ hbody₁ trivial ?_
    intro c σ₂ _ hheap₂ hbody₂
    cases c with
    | normal => exact receiving_answer hheap₂ hbody₂ trivial
    | returned v => exact receiving_ok hheap₂
  · exact receiving_ok hheap₁

/-- Every step of every task leaves receivers as they are. -/
theorem receiving_holds (hwalked : Walked V) : receiving.Holds (soundness V) where
  refl := State.Extends.refl
  trans := State.Extends.trans
  step t σ hpre hready hheap := by
    obtain ⟨h, hentered⟩ := hpre
    obtain ⟨hbody, hhomed⟩ := hready
    cases t with
    | eval e =>
        obtain ⟨ctx, e, hvisit, rfl, hmatches⟩ := hentered
        exact receiving_evalWork hwalked h hheap hbody hvisit hmatches
    | evalAll es => exact receiving_evalAll hheap hbody es
    | call callee paren arguments => exact receiving_call hheap hbody callee paren arguments
    | apply callee arguments => exact receiving_applyWork hheap hbody callee arguments
    | invoke f arguments => exact receiving_invoke hwalked hheap hbody hentered.1 arguments
    | scope body parent bindings => exact receiving_scope h hheap hentered hhomed
    | execAll ss => exact receiving_execAll hheap hbody ss
    | exec s =>
        obtain ⟨ctx, s, hvisit, rfl, -⟩ := hentered
        exact receiving_execWork hwalked h hheap hbody hvisit
    | loop condition body => exact receiving_loop hheap hbody condition body

end Lox
