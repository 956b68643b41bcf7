import Lox.Proofs.Eval.History
import Lox.Proofs.Store.Scopes

/-!
# What steps leave behind

For each step that evaluates nothing further, the states in which it can end. Most leave the state
as it is; the others are told apart by the one thing that they change.
-/

namespace Lox

open Eval

/-! ### Operators -/

/-- Whatever the state, the operator yields one value that a literal can have, or it is refused. -/
def Operates (operator : Token) (o : State → Outcome Value) : Prop :=
  (∃ l : Literal, ∀ σ, o σ = .ok l.value σ) ∨ ∃ cause, ∀ σ, o σ = fail operator cause σ

theorem operates_ok (operator : Token) (l : Literal) : Operates operator (.ok l.value) :=
  .inl ⟨l, fun _ => rfl⟩

theorem operates_fail (operator : Token) (cause : RuntimeError.Cause) :
    Operates operator (fail operator cause) :=
  .inr ⟨cause, fun _ => rfl⟩

theorem operates_unary (operator : Token) (v : Value) : Operates operator (unary operator v) := by
  unfold unary
  split
  · exact operates_ok operator (.bool _)
  · split
    · exact operates_ok operator (.num _)
    · exact operates_fail operator _
  · exact operates_fail operator _

theorem operates_arithmetic (operator : Token) (x y : Number) :
    Operates operator (arithmetic operator x y) := by
  unfold arithmetic
  split
  case h_8 => exact operates_fail operator _
  all_goals first | exact operates_ok operator (.bool _) | exact operates_ok operator (.num _)

theorem operates_add (operator : Token) (a b : Value) : Operates operator (add operator a b) := by
  unfold add
  split
  · exact operates_ok operator (.num _)
  · exact operates_ok operator (.str _)
  · exact operates_fail operator _

theorem operates_binary (operator : Token) (a b : Value) :
    Operates operator (binary operator a b) := by
  unfold binary
  split
  · exact operates_ok operator (.bool _)
  · exact operates_ok operator (.bool _)
  · exact operates_add operator a b
  · split
    · exact operates_arithmetic operator _ _
    · exact operates_fail operator _

/-! ### Steps -/

section Unchanged

variable {σ : State}

theorem leaves_fail {α : Type} (token : Token) (cause : RuntimeError.Cause) :
    (fail token cause σ : Outcome α).Leaves (· = σ) :=
  Outcome.leaves_error.mpr rfl

theorem Operates.leaves {operator : Token} {o : State → Outcome Value} (h : Operates operator o) :
    (o σ).Leaves (· = σ) := by
  obtain ⟨l, hok⟩ | ⟨cause, hfail⟩ := h
  · rw [hok]
    exact Outcome.leaves_ok.mpr rfl
  · rw [hfail]
    exact leaves_fail _ _

theorem leaves_read (name : Token) (site : Site) : (read name site σ).Leaves (· = σ) := by
  unfold Eval.read
  cases site with
  | some distance =>
      dsimp only
      split
      · exact Outcome.leaves_ok.mpr rfl
      · exact Outcome.leaves_broken.mpr rfl
  | none =>
      dsimp only
      split
      · exact Outcome.leaves_ok.mpr rfl
      · exact Outcome.leaves_error.mpr rfl

theorem leaves_result (f : Function) (c : Completion) : (result f c σ).Leaves (· = σ) := by
  unfold result
  cases f.isInitializer with
  | true =>
      simp only [↓reduceIte]
      split
      · exact Outcome.leaves_ok.mpr rfl
      · exact Outcome.leaves_broken.mpr rfl
  | false =>
      cases c with
      | normal => exact Outcome.leaves_ok.mpr rfl
      | returned v => exact Outcome.leaves_ok.mpr rfl

end Unchanged

section Changed

variable {σ : State}

theorem leaves_assign (name : Token) (site : Site) (v : Value) :
    (assign name site v σ).Leaves fun σ' => σ' = σ ∨ ∃ id, σ' = σ.define id name.lexeme v := by
  cases site with
  | some distance =>
      simp only [assign, Scopes.assignAt?_eq_map]
      cases σ.scopes.ancestor? σ.env distance with
      | some scope => exact Outcome.leaves_ok.mpr (.inr ⟨scope, rfl⟩)
      | none => exact Outcome.leaves_broken.mpr (.inl rfl)
  | none =>
      simp only [assign, assignGlobal]
      split
      case h_1 scopes hscopes =>
        obtain ⟨holder, rfl⟩ := Scopes.exists_of_assign? _ hscopes
        exact Outcome.leaves_ok.mpr (.inr ⟨holder, rfl⟩)
      case h_2 => exact Outcome.leaves_error.mpr (.inl rfl)

/-- A property that is a method is bound to the instance, whose class has it or inherits it. -/
theorem leaves_get (v : Value) (name : Token) :
    (Eval.get v name σ).Leaves fun σ' => σ' = σ ∨
      ∃ id o f, v = .object id ∧ σ.objects[id]? = some o ∧
        σ.method? o.classId name.lexeme = some f ∧ σ' = (σ.boundMethod f id).2 := by
  cases v with
  | object id =>
      simp only [Eval.get, property]
      split
      · exact Outcome.leaves_broken.mpr (.inl rfl)
      case h_2 o ho =>
        split
        · exact Outcome.leaves_ok.mpr (.inl rfl)
        · split
          case h_1 f hf => exact Outcome.leaves_ok.mpr (.inr ⟨id, o, f, rfl, ho, hf, rfl⟩)
          case h_2 => exact (leaves_fail _ _).mono fun _ h => .inl h
  | _ => exact (leaves_fail _ _).mono fun _ h => .inl h

/-- A method of a superclass is bound to the receiver that is found one scope further in. -/
theorem leaves_super (site : Site) (method : Token) :
    (super site method σ).Leaves fun σ' => σ' = σ ∨
      ∃ base receiver f,
        σ.scopes.getAt? σ.env (site.getD 0) superName = some (.class base) ∧
        σ.scopes.getAt? σ.env (site.getD 0 - 1) thisName = some (.object receiver) ∧
        σ.method? base method.lexeme = some f ∧ σ' = (σ.boundMethod f receiver).2 := by
  simp only [super]
  split
  case h_1 base receiver hbase hreceiver =>
    split
    case h_1 f hf =>
      exact Outcome.leaves_ok.mpr (.inr ⟨base, receiver, f, hbase, hreceiver, hf, rfl⟩)
    case h_2 => exact (leaves_fail _ _).mono fun _ h => .inl h
  case h_2 => exact Outcome.leaves_broken.mpr (.inl rfl)

theorem leaves_readClock : (readClock σ).Leaves (· = σ.tick.2) :=
  Outcome.leaves_ok.mpr rfl

/-- The state in which a class has been made, before its name is bound to it. -/
def withClass (name : Token) (superclass : Option ClassId) (methods : List (FunctionDecl Site))
    (σ : State) : State :=
  ((methodScope superclass σ).2.newClass
    ⟨name.lexeme, superclass, methodTable (methodScope superclass σ).1 methods⟩).2

theorem leaves_finishClass (name : Token) (superclass : Option ClassId)
    (methods : List (FunctionDecl Site)) :
    (finishClass name superclass methods σ).Leaves fun σ' =>
      σ' = withClass name superclass methods σ ∨
        ∃ id v, σ' = (withClass name superclass methods σ).define id name.lexeme v := by
  simp only [finishClass]
  split
  case h_1 scopes hscopes =>
    obtain ⟨holder, rfl⟩ := Scopes.exists_of_assign? _ hscopes
    exact Outcome.leaves_ok.mpr (.inr ⟨holder, _, rfl⟩)
  case h_2 => exact Outcome.leaves_error.mpr (.inl rfl)

/-- A class statement stops at its superclass, or makes a class that has what it read there. -/
theorem leaves_classWork (name : Token) (superclass : Option (Token × Site))
    (methods : List (FunctionDecl Site)) :
    (Task.classWork name superclass methods σ).Leaves fun σ' => σ' = σ ∨
      ∃ base : Option ClassId,
        (∀ id, base = some id → ∃ use, superclass = some use ∧
          read use.1 use.2 σ = .ok (.class id) σ) ∧
        (σ' = withClass name base methods σ ∨
          ∃ id v, σ' = (withClass name base methods σ).define id name.lexeme v) := by
  cases superclass with
  | none =>
      refine (leaves_finishClass name none methods).mono fun σ' hσ' => .inr ⟨none, ?_, hσ'⟩
      exact fun id hid => nomatch hid
  | some use =>
      obtain ⟨base, site⟩ := use
      simp only [Task.classWork]
      have hread := leaves_read (σ := σ) base site
      cases hend : read base site σ with
      | ok v σ₁ =>
          rw [hend] at hread
          have hsame := Outcome.leaves_ok.mp hread
          subst hsame
          cases v with
          | «class» id =>
              refine (leaves_finishClass name (some id) methods).mono fun σ' hσ' =>
                .inr ⟨some id, fun id' hid' => ?_, hσ'⟩
              cases hid'
              exact ⟨(base, site), rfl, hend⟩
          | _ => exact (leaves_fail _ _).mono fun _ h => .inl h
      | error e σ₁ =>
          rw [hend] at hread
          exact hread.mono fun _ h => .inl h
      | broken σ₁ =>
          rw [hend] at hread
          exact hread.mono fun _ h => .inl h
      | outOfFuel => exact Outcome.leaves_outOfFuel

/-- The name of a class is bound in the innermost scope, so that is where the class is bound. -/
theorem finishClass_eq {name : Token} (h : (σ.scopes.bound? σ.env name.lexeme).isSome)
    (superclass : Option ClassId) (methods : List (FunctionDecl Site)) :
    finishClass name superclass methods σ =
      .ok .normal ((withClass name superclass methods σ).define σ.env name.lexeme
        (.class σ.classes.size)) := by
  have henv : (methodScope superclass σ).2.env = σ.env := by cases superclass <;> rfl
  have hclasses : (methodScope superclass σ).2.classes = σ.classes := by cases superclass <;> rfl
  have hgrows : σ.scopes.Grows (methodScope superclass σ).2.scopes := by
    cases superclass with
    | none => exact .refl _
    | some base => exact Scopes.grows_push _ _ _
  have hholder := Scopes.holder?_of_bound? (hgrows.bound _ _ h)
  simp only [finishClass, withClass, State.newClass, henv, hclasses, Scopes.assign?_eq_map, hholder]
  rfl

/-- How a class statement ends: it makes a class, or the name after `<` is no class. -/
inductive ClassEnds (name : Token) (superclass : Option (Token × Site))
    (methods : List (FunctionDecl Site)) (σ : State) : Outcome Completion → Prop where
  | made (base : Option ClassId)
      (hbase : ∀ id, base = some id → ∃ use, superclass = some use ∧
        read use.1 use.2 σ = .ok (.class id) σ) :
      ClassEnds name superclass methods σ
        (.ok .normal ((withClass name base methods σ).define σ.env name.lexeme
          (.class σ.classes.size)))
  | unread {use : Token × Site} {e : RuntimeError} (huse : superclass = some use)
      (hread : read use.1 use.2 σ = .error e σ) :
      ClassEnds name superclass methods σ (.error e σ)
  | notClass {use : Token × Site} {v : Value} (huse : superclass = some use)
      (hread : read use.1 use.2 σ = .ok v σ) (hv : ∀ id, v ≠ .class id) :
      ClassEnds name superclass methods σ (.error ⟨use.1, .superclassNotClass⟩ σ)

theorem classEnds {name : Token} (h : (σ.scopes.bound? σ.env name.lexeme).isSome)
    {superclass : Option (Token × Site)} {methods : List (FunctionDecl Site)}
    {ok : Completion → State → Prop} {error : RuntimeError → State → Prop}
    (hmeets : (Task.classWork name superclass methods σ).Meets ok error) :
    ClassEnds name superclass methods σ (Task.classWork name superclass methods σ) := by
  cases superclass with
  | none =>
      rw [Task.classWork, finishClass_eq h]
      exact .made none fun _ hid => nomatch hid
  | some use =>
      obtain ⟨base, site⟩ := use
      have hleaves := leaves_read (σ := σ) base site
      simp only [Task.classWork] at hmeets ⊢
      cases hread : read base site σ with
      | ok v σ₁ =>
          rw [hread] at hleaves
          obtain rfl := Outcome.leaves_ok.mp hleaves
          cases v with
          | «class» id =>
              simp only [Outcome.bind, finishClass_eq h]
              refine .made (some id) fun _ hid => ⟨(base, site), rfl, ?_⟩
              cases hid
              exact hread
          | _ => exact .notClass rfl hread (by simp)
      | error e σ₁ =>
          rw [hread] at hleaves
          obtain rfl := Outcome.leaves_error.mp hleaves
          exact .unread rfl hread
      | broken σ₁ =>
          rw [hread] at hmeets
          exact hmeets.elim
      | outOfFuel =>
          unfold Eval.read at hread
          cases site <;> dsimp only at hread <;> split at hread <;> cases hread

theorem ClassEnds.error_cases {name : Token} {superclass : Option (Token × Site)}
    {methods : List (FunctionDecl Site)} {e : RuntimeError} {σ' : State}
    (h : ClassEnds name superclass methods σ (.error e σ')) :
    σ' = σ ∧ ∃ use, superclass = some use ∧
      (read use.1 use.2 σ = .error e σ ∨ ∃ v, read use.1 use.2 σ = .ok v σ ∧
        (∀ id, v ≠ .class id) ∧ e = ⟨use.1, .superclassNotClass⟩) := by
  cases h with
  | unread huse hread => exact ⟨rfl, _, huse, .inl hread⟩
  | notClass huse hread hv => exact ⟨rfl, _, huse, .inr ⟨_, hread, hv, rfl⟩⟩

end Changed

end Lox
