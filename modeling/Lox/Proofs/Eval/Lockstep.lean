import Lox.Proofs.Eval.Leaves
import Lox.Proofs.Store.Paired

/-!
# Steps in lockstep

Two states side by side answer alike to a step that looks at no scope. What is meant by alike is left
open: it is a relation of outcomes that holds of each way in which such a step can end.
-/

namespace Lox

open Eval

/-- The relation holds when both states give the same value as they are, refuse the same token, break
off, bind two methods that are related by `M`, or put the clock forward. -/
structure Lockstep (F M : Function → Function → Prop) (E : Outcome Value → Outcome Value → Prop)
    (σ σ' : State) : Prop extends σ.SideBySide F M σ' where
  ok (v : Value) : E (.ok v σ) (.ok v σ')
  fail (t : Token) (cause : RuntimeError.Cause) : E (fail t cause σ) (fail t cause σ')
  broken : E (.broken σ) (.broken σ')
  bound (receiver : ObjectId) {f f' : Function} (hf : M f f') :
    E (.ok (σ.boundMethod f receiver).1 (σ.boundMethod f receiver).2)
      (.ok (σ'.boundMethod f' receiver).1 (σ'.boundMethod f' receiver).2)
  ticked (v : Value) (clock : List Int) : E (.ok v { σ with clock }) (.ok v { σ' with clock })

namespace Lockstep

variable {F M : Function → Function → Prop} {E : Outcome Value → Outcome Value → Prop}
  {σ σ' : State}

theorem operates (h : Lockstep F M E σ σ') {operator : Token} {o : State → Outcome Value}
    (hoperates : Operates operator o) : E (o σ) (o σ') := by
  obtain ⟨l, hok⟩ | ⟨cause, hfail⟩ := hoperates
  · rw [hok, hok]
    exact h.ok _
  · rw [hfail, hfail]
    exact h.fail _ _

theorem get (h : Lockstep F M E σ σ') (v : Value) (name : Token) :
    E (get v name σ) (get v name σ') := by
  cases v with
  | object id =>
      simp only [Eval.get, property, h.objects]
      cases σ.objects[id]? with
      | none => exact h.broken
      | some o =>
          dsimp only
          cases o.fields.lookup name.lexeme with
          | some v => exact h.ok v
          | none =>
              dsimp only
              have hmethod := h.method? o.classId name.lexeme
              generalize σ.method? o.classId name.lexeme = x at hmethod ⊢
              generalize σ'.method? o.classId name.lexeme = y at hmethod ⊢
              cases hmethod with
              | some hf => exact h.bound id hf
              | none => exact h.fail _ _
  | _ => exact h.fail _ _

/-- The distance of `super` may differ, if there is the same to be found at it. -/
theorem super (h : Lockstep F M E σ σ') {site site' : Site}
    (hsuper : σ'.scopes.getAt? σ'.env (site'.getD 0) superName =
      σ.scopes.getAt? σ.env (site.getD 0) superName)
    (hthis : σ'.scopes.getAt? σ'.env (site'.getD 0 - 1) thisName =
      σ.scopes.getAt? σ.env (site.getD 0 - 1) thisName) (method : Token) :
    E (super site method σ) (super site' method σ') := by
  simp only [Eval.super, hsuper, hthis]
  split
  case h_1 base receiver _ _ =>
    have hmethod := h.method? base method.lexeme
    generalize σ.method? base method.lexeme = x at hmethod ⊢
    generalize σ'.method? base method.lexeme = y at hmethod ⊢
    cases hmethod with
    | some hf => exact h.bound receiver hf
    | none => exact h.fail _ _
  case h_2 => exact h.broken

theorem readClock (h : Lockstep F M E σ σ') : E (readClock σ) (readClock σ') := by
  obtain ⟨reading, clock, htick, htick'⟩ := h.exists_tick
  simp only [Eval.readClock, htick, htick']
  exact h.ticked _ clock

end Lockstep

end Lox
