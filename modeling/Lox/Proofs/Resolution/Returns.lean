import Lox.Resolution.Bind
import Lox.Resolution.Check

/-!
# Where a program returns

The statements of a body are those that stand in it outside of the functions that it declares. In a
body without faults a `return` is one of the function around it, and one of an initializer carries
no value.
-/

namespace Lox

open Resolution

mutual

/-- A statement and the statements inside it that belong to the same function. -/
def Stmt.within {ρ : Type} : Stmt ρ → List (Stmt ρ)
  | .block body => .block body :: Stmt.withinAll body
  | .class name superclass methods => [.class name superclass methods]
  | .expr e => [.expr e]
  | .function decl => [.function decl]
  | .ifThen condition thenBranch => .ifThen condition thenBranch :: thenBranch.within
  | .ifElse condition thenBranch elseBranch =>
      .ifElse condition thenBranch elseBranch :: (thenBranch.within ++ elseBranch.within)
  | .print e => [.print e]
  | .return keyword value => [.return keyword value]
  | .var name init => [.var name init]
  | .while condition body => .while condition body :: body.within

def Stmt.withinAll {ρ : Type} : List (Stmt ρ) → List (Stmt ρ)
  | [] => []
  | s :: ss => s.within ++ Stmt.withinAll ss

end

theorem Stmt.mem_within {ρ : Type} (s : Stmt ρ) : s ∈ s.within := by
  cases s <;> simp [within]

theorem Stmt.mem_withinAll {ρ : Type} {ss : List (Stmt ρ)} {s r : Stmt ρ} (hs : s ∈ ss)
    (hr : r ∈ s.within) : r ∈ Stmt.withinAll ss := by
  induction ss with
  | nil => cases hs
  | cons first ss ih =>
      rw [withinAll, List.mem_append]
      rcases List.mem_cons.mp hs with rfl | hs
      · exact .inl hr
      · exact .inr (ih hs)

namespace Resolution

/-! ### Contexts of one function -/

@[simp]
theorem Context.function_mark (ctx : Context) (name : Bytes) (ready : Bool) :
    (ctx.mark name ready).function = ctx.function := by
  unfold Context.mark
  split <;> rfl

@[simp]
theorem Context.function_after {ρ : Type} (ctx : Context) (s : Stmt ρ) :
    (ctx.after s).function = ctx.function := by
  fun_induction Context.after ctx s <;> simp_all [Context.define]

@[simp]
theorem Context.function_foldl_define (params : List Token) (ctx : Context) :
    (params.foldl Context.define ctx).function = ctx.function := by
  induction params generalizing ctx with
  | nil => rfl
  | cons param params ih =>
      rw [List.foldl_cons, ih]
      exact ctx.function_mark param.lexeme true

@[simp]
theorem Context.function_inFunction (ctx : Context) (kind : FunctionKind) (params : List Token) :
    (ctx.inFunction kind params).function = kind := by
  rw [Context.inFunction, Context.function_foldl_define]
  rfl

/-- A `return`, if the statement is one, may stand in the function. -/
def Allows (kind : FunctionKind) : Stmt Site → Prop
  | .return _ value => kind ≠ .none ∧ (kind = .initializer → value = none)
  | _ => True

theorem allows_return {ctx : Context} {keyword : Token} {value : Option (Expr Unit)}
    (h : (Stmt.return keyword value).faults ctx = []) :
    Allows ctx.function (.return keyword (value.map (Expr.resolve ctx))) := by
  simp only [Stmt.faults, List.append_eq_nil_iff] at h
  have hrule := h.1
  unfold returnFaults at hrule
  cases hkind : ctx.function with
  | none => simp [hkind] at hrule
  | initializer =>
      simp only [hkind] at hrule
      cases value with
      | none => simp [Allows]
      | some e => simp at hrule
  | function => simp [Allows]
  | method => simp [Allows]

end Resolution

mutual

/-- In a statement without faults every `return` may stand in the function around it. -/
theorem Stmt.allows_within : (s : Stmt Unit) → (ctx : Context) → s.faults ctx = [] →
    ∀ r ∈ (s.resolve ctx).within, Allows ctx.function r
  | .block body, ctx, h => by
      rw [Stmt.resolve, within, List.forall_mem_cons]
      exact ⟨trivial, Stmt.allows_withinAll body (ctx.enter []) h⟩
  | .class name superclass methods, ctx, _ => by simp [Stmt.resolve, within, Allows]
  | .expr e, ctx, _ => by simp [Stmt.resolve, within, Allows]
  | .function decl, ctx, _ => by simp [Stmt.resolve, within, Allows]
  | .ifThen condition thenBranch, ctx, h => by
      simp only [Stmt.faults, List.append_eq_nil_iff] at h
      rw [Stmt.resolve, within, List.forall_mem_cons]
      exact ⟨trivial, thenBranch.allows_within ctx h.2⟩
  | .ifElse condition thenBranch elseBranch, ctx, h => by
      simp only [Stmt.faults, List.append_eq_nil_iff] at h
      obtain ⟨⟨-, hthen⟩, helse⟩ := h
      rw [Stmt.resolve, within, List.forall_mem_cons, List.forall_mem_append]
      refine ⟨trivial, thenBranch.allows_within ctx hthen, ?_⟩
      have hbranch := elseBranch.allows_within (ctx.after thenBranch) helse
      rwa [Context.function_after] at hbranch
  | .print e, ctx, _ => by simp [Stmt.resolve, within, Allows]
  | .return keyword value, ctx, h => by
      rw [Stmt.resolve, within, List.forall_mem_singleton]
      exact allows_return h
  | .var name init, ctx, _ => by simp [Stmt.resolve, within, Allows]
  | .while condition body, ctx, h => by
      simp only [Stmt.faults, List.append_eq_nil_iff] at h
      rw [Stmt.resolve, within, List.forall_mem_cons]
      exact ⟨trivial, body.allows_within ctx h.2⟩

theorem Stmt.allows_withinAll : (ss : List (Stmt Unit)) → (ctx : Context) →
    Stmt.faultsAll ctx ss = [] →
    ∀ r ∈ Stmt.withinAll (Stmt.resolveAll ctx ss), Allows ctx.function r
  | [], ctx, _ => by simp [Stmt.resolveAll, withinAll]
  | s :: ss, ctx, h => by
      simp only [Stmt.faultsAll, List.append_eq_nil_iff] at h
      rw [Stmt.resolveAll, withinAll, List.forall_mem_append]
      refine ⟨s.allows_within ctx h.1, ?_⟩
      have hrest := Stmt.allows_withinAll ss (ctx.after s) h.2
      rwa [Context.function_after] at hrest

end

/-- The body of a function without faults returns as its kind allows. -/
theorem FunctionDecl.allows_body {d : FunctionDecl Unit} {ctx : Context} {kind : FunctionKind}
    (h : d.faults ctx kind = []) :
    ∀ r ∈ Stmt.withinAll (d.resolve ctx kind).body, Allows kind r := by
  obtain ⟨name, params, body⟩ := d
  simp only [FunctionDecl.faults, List.append_eq_nil_iff] at h
  have hbody := Stmt.allows_withinAll body _ h.2
  rwa [Context.function_inFunction] at hbody

end Lox
