import Mathlib.Logic.Relation
import Lox.Proofs.Eval.Leaves

/-!
# Elementary changes

All that a task does to a state itself, and not through the tasks that it sets off, it does in a few
elementary changes, one for each operation on states. What every elementary change keeps is kept by
every run. Nothing is assumed of the state.
-/

namespace Lox

open Eval

variable {α : Type}

/-- Only a class statement makes a class: under its own name and with all of its methods. The current
scope, the number of active calls and the clock are no part of the store. -/
inductive Change (t : Task) : State → State → Prop where
  | define (σ : State) (id : ScopeId) (name : Bytes) (v : Value) : Change t σ (σ.define id name v)
  | newScope (σ : State) (parent : ScopeId) (bindings : Bindings Value) :
      Change t σ (σ.newScope parent bindings).2
  | functionValue (σ : State) (f : Function) : Change t σ (σ.functionValue f).2
  | newClass (σ : State) {name : Token} {superclass : Option (Token × Site)}
      {methods : List (FunctionDecl Site)} (ht : t = .exec (.class name superclass methods))
      (base : Option ClassId) (closure : ScopeId) :
      Change t σ (σ.newClass ⟨name.lexeme, base, methodTable closure methods⟩).2
  | newObject (σ : State) (o : Object) : Change t σ (σ.newObject o).2
  | setField (σ : State) (id : ObjectId) (name : Bytes) (v : Value) :
      Change t σ (σ.setField id name v)
  | print (σ : State) (text : Bytes) : Change t σ (σ.print text)
  | aside (σ : State) (env : ScopeId) (depth : Nat) (clock : List Int) :
      Change t σ { σ with env := env, depth := depth, clock := clock }

abbrev Changes (t : Task) : State → State → Prop :=
  Relation.ReflTransGen (Change t)

/-! ### Steps that evaluate nothing further -/

section Leaf

variable {t : Task} {σ : State}

theorem changes_bindMethod (f : Function) (receiver : ObjectId) :
    Changes t σ (σ.bindMethod f receiver).2 :=
  .single (.newScope σ f.closure [(thisName, .object receiver)])

theorem changes_boundMethod (f : Function) (receiver : ObjectId) :
    Changes t σ (σ.boundMethod f receiver).2 :=
  (changes_bindMethod f receiver).tail (.functionValue _ (σ.bindMethod f receiver).1)

theorem changes_assign (name : Token) (site : Site) (v : Value) :
    (assign name site v σ).Leaves (Changes t σ) := by
  refine (leaves_assign name site v).mono ?_
  rintro σ' (rfl | ⟨id, rfl⟩)
  · exact .refl
  · exact .single (.define σ id name.lexeme v)

theorem changes_get (v : Value) (name : Token) : (Eval.get v name σ).Leaves (Changes t σ) := by
  refine (leaves_get v name).mono ?_
  rintro σ' (rfl | ⟨id, o, f, -, -, -, rfl⟩)
  · exact .refl
  · exact changes_boundMethod f id

theorem changes_super (site : Site) (method : Token) :
    (super site method σ).Leaves (Changes t σ) := by
  refine (leaves_super site method).mono ?_
  rintro σ' (rfl | ⟨base, receiver, f, -, -, -, rfl⟩)
  · exact .refl
  · exact changes_boundMethod f receiver

theorem changes_readClock : (readClock σ).Leaves (Changes t σ) := by
  refine leaves_readClock.mono ?_
  rintro σ' rfl
  have htick : σ.tick.2 = { σ with clock := σ.tick.2.clock } := by
    unfold State.tick
    split <;> rfl
  rw [htick]
  exact .single (.aside σ σ.env σ.depth _)

theorem changes_enter (parent : ScopeId) (bindings : Bindings Value) :
    Changes t σ (σ.enter parent bindings) :=
  .tail (.single (.newScope σ parent bindings)) (.aside _ σ.scopes.next σ.depth σ.clock)

/-- A class is made after the scope for `super`, if it has one. -/
theorem changes_withClass {name : Token} {superclass : Option (Token × Site)}
    {methods : List (FunctionDecl Site)} (base : Option ClassId) :
    Changes (.exec (.class name superclass methods)) σ (withClass name base methods σ) := by
  have hscope : Changes (.exec (.class name superclass methods)) σ (methodScope base σ).2 := by
    cases base with
    | none => exact .refl
    | some id => exact .single (.newScope σ σ.env [(superName, .class id)])
  exact hscope.tail (.newClass _ rfl base (methodScope base σ).1)

theorem changes_class (name : Token) (superclass : Option (Token × Site))
    (methods : List (FunctionDecl Site)) :
    (Task.classWork name superclass methods (σ.define σ.env name.lexeme .nil)).Leaves
      (Changes (.exec (.class name superclass methods)) σ) := by
  have hdefine : Changes (.exec (.class name superclass methods)) σ
      (σ.define σ.env name.lexeme .nil) := .single (.define σ σ.env name.lexeme .nil)
  refine (leaves_classWork name superclass methods).mono ?_
  rintro σ' (rfl | ⟨base, -, rfl | ⟨id, v, rfl⟩⟩)
  · exact hdefine
  · exact hdefine.trans (changes_withClass base)
  · exact (hdefine.trans (changes_withClass base)).tail (.define _ id name.lexeme v)

theorem changes_functionStatement (decl : FunctionDecl Site) :
    Changes t σ ((σ.functionValue ⟨decl, σ.env, false⟩).2.define σ.env decl.name.lexeme
      (σ.functionValue ⟨decl, σ.env, false⟩).1) :=
  .tail (.single (.functionValue σ ⟨decl, σ.env, false⟩)) (.define _ σ.env decl.name.lexeme _)

end Leaf

/-! ### Tasks -/

/-- From `before` on, and again behind each task that it sets off, the computation itself does
nothing but changes of `t`. -/
def Work.ChangesBy (t : Task) : State → Work α → Prop
  | before, .done o => o.Leaves (Changes t before)
  | before, .enter _ σ leave next =>
      Changes t before σ ∧
        ∀ σ', Changes t σ' (leave σ') ∧ ∀ a, (next a (leave σ')).ChangesBy t (leave σ')

section Rules

variable {t : Task} {before σ : State}

theorem changesBy_ask {s : Task} {next : s.Answer → State → Work α} (h : Changes t before σ)
    (hnext : ∀ a σ', (next a σ').ChangesBy t σ') : (Work.ask s σ next).ChangesBy t before :=
  ⟨h, fun σ' => ⟨.refl, fun a => hnext a σ'⟩⟩

theorem changesBy_ok {a : α} (h : Changes t before σ) :
    (Work.done (.ok a σ)).ChangesBy t before :=
  Outcome.leaves_ok.mpr h

theorem changesBy_broken (h : Changes t before σ) :
    (Work.done (.broken σ : Outcome α)).ChangesBy t before :=
  Outcome.leaves_broken.mpr h

theorem changesBy_answer {s : Task} (h : Changes t before σ) :
    (Work.answer s σ).ChangesBy t before :=
  changesBy_ask h fun _ _ => changesBy_ok .refl

theorem changesBy_unchanged {o : Outcome α} (h : o.Leaves (· = σ)) :
    (Work.done o).ChangesBy t σ := by
  refine Outcome.Leaves.mono h fun σ' hσ' => ?_
  subst hσ'
  exact .refl

end Rules

theorem changesBy_evalWork (t : Task) (e : Expr Site) (σ : State) :
    (Task.evalWork e σ).ChangesBy t σ := by
  cases e with
  | assign name site value =>
      exact changesBy_ask .refl fun v σ₁ => changes_assign name site v
  | binary left operator right =>
      refine changesBy_ask .refl fun a σ₁ => changesBy_ask .refl fun b σ₂ => ?_
      exact changesBy_unchanged (operates_binary operator a b).leaves
  | call callee paren arguments =>
      refine changesBy_ask .refl fun f σ₁ => changesBy_ask .refl fun vs σ₂ => ?_
      exact changesBy_answer .refl
  | get object name => exact changesBy_ask .refl fun v σ₁ => changes_get v name
  | group inner => exact changesBy_answer .refl
  | literal value => exact changesBy_ok .refl
  | logical left operator right =>
      refine changesBy_ask .refl fun a σ₁ => ?_
      split
      · exact changesBy_ok .refl
      · exact changesBy_answer .refl
  | set object name value =>
      refine changesBy_ask .refl fun o σ₁ => ?_
      cases o with
      | object id =>
          refine changesBy_ask .refl fun v σ₂ => ?_
          exact changesBy_ok (.single (.setField σ₂ id name.lexeme v))
      | _ => exact changesBy_unchanged (leaves_fail _ _)
  | «super» keyword site method => exact changes_super site method
  | this keyword site => exact changesBy_unchanged (leaves_read keyword site)
  | unary operator operand =>
      refine changesBy_ask .refl fun v σ₁ => ?_
      exact changesBy_unchanged (operates_unary operator v).leaves
  | read name site => exact changesBy_unchanged (leaves_read name site)

theorem changesBy_execWork (s : Stmt Site) (σ : State) :
    (Task.execWork s σ).ChangesBy (.exec s) σ := by
  cases s with
  | block body => exact changesBy_answer .refl
  | «class» name superclass methods => exact changes_class name superclass methods
  | expr e => exact changesBy_ask .refl fun _ σ₁ => changesBy_ok .refl
  | function decl => exact changesBy_ok (changes_functionStatement decl)
  | ifThen condition thenBranch =>
      refine changesBy_ask .refl fun v σ₁ => ?_
      split
      · exact changesBy_answer .refl
      · exact changesBy_ok .refl
  | ifElse condition thenBranch elseBranch =>
      refine changesBy_ask .refl fun v σ₁ => ?_
      split
      · exact changesBy_answer .refl
      · exact changesBy_answer .refl
  | print e =>
      refine changesBy_ask .refl fun v σ₁ => ?_
      exact changesBy_ok (.single (.print σ₁ (σ₁.text v)))
  | «return» keyword value =>
      cases value with
      | none => exact changesBy_ok .refl
      | some e => exact changesBy_ask .refl fun _ σ₁ => changesBy_ok .refl
  | var name init =>
      cases init with
      | none => exact changesBy_ok (.single (.define σ σ.env name.lexeme .nil))
      | some e =>
          refine changesBy_ask .refl fun v σ₁ => ?_
          exact changesBy_ok (.single (.define σ₁ σ₁.env name.lexeme v))
  | «while» condition body => exact changesBy_answer .refl

theorem changesBy_applyWork (t : Task) (callee : Value) (arguments : List Value) (σ : State) :
    (Task.applyWork callee arguments σ).ChangesBy t σ := by
  cases callee with
  | function id =>
      simp only [Task.applyWork]
      split
      · exact changesBy_answer .refl
      · exact changesBy_broken .refl
  | clock => exact changes_readClock
  | «class» id =>
      have hobject : Changes t σ (σ.newObject ⟨id, []⟩).2 := .single (.newObject σ ⟨id, []⟩)
      simp only [Task.applyWork]
      split
      case h_1 init _ =>
        refine changesBy_ask (hobject.trans (changes_bindMethod init _)) fun _ σ₁ => ?_
        exact changesBy_ok .refl
      case h_2 => exact changesBy_ok hobject
  | _ => exact changesBy_broken .refl

/-- Every task, in whatever state, does nothing itself but its own changes. -/
theorem Task.changes (t : Task) (σ : State) : (t.work σ).ChangesBy t σ := by
  cases t with
  | eval e => exact changesBy_evalWork _ e σ
  | evalAll es =>
      cases es with
      | nil => exact changesBy_ok .refl
      | cons e es =>
          refine changesBy_ask .refl fun v σ₁ => changesBy_ask .refl fun vs σ₂ => ?_
          exact changesBy_ok .refl
  | call callee paren arguments =>
      simp only [Task.work]
      split
      · exact changesBy_unchanged (leaves_fail _ _)
      · refine ⟨.single (.aside σ σ.env (σ.depth + 1) σ.clock), fun σ' => ⟨?_, fun a => ?_⟩⟩
        · exact .single (.aside σ' σ'.env (σ'.depth - 1) σ'.clock)
        · exact changesBy_ok .refl
  | apply callee arguments => exact changesBy_applyWork _ callee arguments σ
  | invoke f arguments =>
      refine changesBy_ask .refl fun c σ₁ => ?_
      exact changesBy_unchanged (leaves_result f c)
  | scope body parent bindings =>
      refine ⟨changes_enter parent bindings, fun σ' => ⟨?_, fun a => changesBy_ok .refl⟩⟩
      exact .single (.aside σ' σ.env σ'.depth σ'.clock)
  | execAll ss =>
      cases ss with
      | nil => exact changesBy_ok .refl
      | cons s ss =>
          refine changesBy_ask .refl fun c σ₁ => ?_
          cases c with
          | normal => exact changesBy_answer .refl
          | returned v => exact changesBy_ok .refl
  | exec s => exact changesBy_execWork s σ
  | loop condition body =>
      refine changesBy_ask .refl fun v σ₁ => ?_
      split
      · refine changesBy_ask .refl fun c σ₂ => ?_
        cases c with
        | normal => exact changesBy_answer .refl
        | returned v => exact changesBy_ok .refl
      · exact changesBy_ok .refl

/-! ### What every change keeps -/

section Kept

variable {C : Contract} {G : Conduct} {t : Task} {before σ : State}
variable (hrefl : ∀ σ, G.moves σ σ) (htrans : ∀ {a b c}, G.moves a b → G.moves b c → G.moves a c)

/-- Each change of the task conforms to the conduct. -/
def Conduct.Allows (G : Conduct) (t : Task) : Prop :=
  ∀ {σ σ'}, Change t σ σ' → G.keeps σ → G.moves σ σ' ∧ G.keeps σ'

include hrefl htrans in
theorem Conduct.Allows.changes (h : G.Allows t) (hchanges : Changes t before σ)
    (hkeeps : G.keeps before) : G.moves before σ ∧ G.keeps σ := by
  induction hchanges with
  | refl => exact ⟨hrefl before, hkeeps⟩
  | tail _ hchange ih =>
      obtain ⟨hmoves, hkeeps₁⟩ := ih
      obtain ⟨hmove, hkeeps₂⟩ := h hchange hkeeps₁
      exact ⟨htrans hmoves hmove, hkeeps₂⟩

include hrefl htrans in
theorem Work.ChangesBy.conforms (h : G.Allows t) (hready : ∀ t σ, G.ready t σ) {w : Work α}
    (hw : w.ChangesBy t before) (hkeeps : G.keeps before) : w.Conforms C G before := by
  induction w generalizing before with
  | done o => exact hw.mono fun σ hσ => h.changes hrefl htrans hσ hkeeps
  | enter s σ leave next ih =>
      obtain ⟨hbefore, hbehind⟩ := hw
      obtain ⟨hmoves, hkeeps₁⟩ := h.changes hrefl htrans hbefore hkeeps
      refine ⟨⟨hmoves, hkeeps₁, hready s σ⟩, fun σ' _ hkeeps' => ?_⟩
      -- Behind the task the changes start over from where `leave` has put the state.
      obtain ⟨hleave, hnext⟩ := hbehind σ'
      have hleft := h.changes hrefl htrans hleave hkeeps'
      exact ⟨hleft, fun a _ => ih a (leave σ') (hnext a) hleft.2⟩

include hrefl htrans in
/-- A conduct holds if the changes of every task that may be set off conform to it. -/
theorem Conduct.holds_of_allows (hready : ∀ t σ, G.ready t σ)
    (hallows : ∀ t σ, C.pre t σ → G.Allows t) : G.Holds C where
  refl := hrefl
  trans := htrans
  step t σ hpre _ hkeeps :=
    (t.changes σ).conforms hrefl htrans (hallows t σ hpre) hready hkeeps

end Kept

end Lox
