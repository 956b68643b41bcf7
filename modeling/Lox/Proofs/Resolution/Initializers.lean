import Lox.Proofs.Resolution.WellFormed

/-!
# Initializers of variables

A name of the innermost scope that is declared and not ready yet is that of the variable whose
initializer is being visited.
-/

namespace Lox.Resolution

/-- Places of the same expression, all visited in one context. -/
inductive Place.Within (ctx : Context) (p : Place) : Place → Prop where
  | self : Within ctx p p
  | next {q r : Place} (h : Within ctx p q) (hnext : (ctx, r) ∈ q.next ctx) : Within ctx p r

/-- The place stands in the initializer of a variable of that name. -/
def InInitializer (V : Context → Place → Prop) (name : Bytes) (ctx : Context) (p : Place) : Prop :=
  ∃ outer token init, V outer (.stmt (.var token (some init))) ∧ token.lexeme = name ∧
    ctx = outer.declare token ∧ Place.Within ctx (.expr init) p

/-- Names that are not ready are explained by an initializer around the place. -/
def Explained (V : Context → Place → Prop) (ctx : Context) : Place → Prop
  | .expr e => ∀ name, ctx.inner? name = some false → InInitializer V name ctx (.expr e)
  | .arguments es => ∀ name, ctx.inner? name = some false → InInitializer V name ctx (.arguments es)
  | _ => True

section Mono

variable {V W : Context → Place → Prop} {ctx : Context} {p : Place}

theorem InInitializer.mono {name : Bytes} (h : InInitializer V name ctx p)
    (hsub : ∀ ctx p, V ctx p → W ctx p) : InInitializer W name ctx p := by
  obtain ⟨outer, token, init, hvisit, hrest⟩ := h
  exact ⟨outer, token, init, hsub _ _ hvisit, hrest⟩

theorem Explained.mono (h : Explained V ctx p) (hsub : ∀ ctx p, V ctx p → W ctx p) :
    Explained W ctx p := by
  cases p with
  | expr e => exact fun name hname => (h name hname).mono hsub
  | arguments es => exact fun name hname => (h name hname).mono hsub
  | _ => trivial

end Mono

theorem Settled.inner?_ne {ctx : Context} (h : Settled ctx.scopes) (name : Bytes) :
    ctx.inner? name ≠ some false := by
  unfold Context.inner?
  cases hscopes : ctx.scopes with
  | nil => simp
  | cons frame outer =>
      rw [hscopes] at h
      exact h frame List.mem_cons_self name

theorem Settled.explained {V : Context → Place → Prop} {ctx : Context} (h : Settled ctx.scopes)
    (p : Place) : Explained V ctx p := by
  cases p with
  | expr e => exact fun name hname => absurd hname (h.inner?_ne name)
  | arguments es => exact fun name hname => absurd hname (h.inner?_ne name)
  | _ => trivial

/-- Of a declared variable alone it can be that it is not ready. -/
theorem Settled.eq_of_inner?_declare {ctx : Context} (h : Settled ctx.scopes) {token : Token}
    {name : Bytes} (hname : (ctx.declare token).inner? name = some false) : token.lexeme = name := by
  unfold Context.declare Context.mark Context.inner? at hname
  cases hscopes : ctx.scopes with
  | nil => simp [hscopes] at hname
  | cons frame outer =>
      rw [hscopes] at h
      simp only [hscopes, List.lookup_cons] at hname
      split at hname
      case h_1 heq => exact (eq_of_beq heq).symm
      case h_2 => exact absurd hname (h frame List.mem_cons_self name)

section Next

variable {V : Context → Place → Prop} {ctx ctx' : Context}

theorem explained_parts {s : Stmt Unit} (hvisit : V ctx (.stmt s)) (hsettled : Settled ctx.scopes)
    {p : Place} (hp : (ctx', p) ∈ Place.parts ctx s) : Explained V ctx' p := by
  have hhere (hctx : ctx' = ctx) : Explained V ctx' p := by
    rw [hctx]
    exact hsettled.explained p
  cases s with
  | «class» name base ds =>
      rcases List.mem_append.mp hp with hbase | hmethods
      · cases base with
        | none => cases hbase
        | some base =>
            cases List.mem_singleton.mp hbase
            exact (hsettled.define name).explained _
      · cases List.mem_singleton.mp hmethods
        trivial
  | block body =>
      cases List.mem_singleton.mp hp
      trivial
  | function decl =>
      cases List.mem_singleton.mp hp
      trivial
  | ifElse condition thenBranch elseBranch =>
      simp only [Place.parts, List.mem_cons, Prod.mk.injEq, List.not_mem_nil, or_false] at hp
      rcases hp with ⟨hctx, -⟩ | ⟨hctx, -⟩ | ⟨-, rfl⟩
      · exact hhere hctx
      · exact hhere hctx
      · trivial
  | «return» keyword value =>
      cases value with
      | none => cases hp
      | some e => exact hhere (Prod.mk.inj (List.mem_singleton.mp hp)).1
  | var name init =>
      cases init with
      | none => cases hp
      | some e =>
          cases List.mem_singleton.mp hp
          intro used hused
          exact ⟨ctx, name, e, hvisit, hsettled.eq_of_inner?_declare hused, rfl, .self⟩
  | expr e => exact hhere (Prod.mk.inj (List.mem_singleton.mp hp)).1
  | print e => exact hhere (Prod.mk.inj (List.mem_singleton.mp hp)).1
  | ifThen condition thenBranch =>
      simp only [Place.parts, List.mem_cons, Prod.mk.injEq, List.not_mem_nil, or_false] at hp
      exact hhere (hp.elim And.left And.left)
  | «while» condition body =>
      simp only [Place.parts, List.mem_cons, Prod.mk.injEq, List.not_mem_nil, or_false] at hp
      exact hhere (hp.elim And.left And.left)

theorem InInitializer.next {name : Bytes} {p q : Place} (h : InInitializer V name ctx p)
    (hnext : (ctx, q) ∈ p.next ctx) : InInitializer V name ctx q := by
  obtain ⟨outer, token, init, hvisit, hname, hctx, hwithin⟩ := h
  exact ⟨outer, token, init, hvisit, hname, hctx, hwithin.next hnext⟩

theorem Explained.next {p q : Place} (h : Explained V ctx p) (hvisit : V ctx p)
    (hsettled : p.Settled ctx) (hnext : (ctx', q) ∈ p.next ctx) : Explained V ctx' q := by
  cases p with
  | expr e =>
      obtain ⟨operand, hoperand, heq⟩ := List.mem_map.mp hnext
      cases heq
      cases q with
      | expr e' => exact fun name hname => (h name hname).next hnext
      | arguments es => exact fun name hname => (h name hname).next hnext
      | _ => trivial
  | arguments es =>
      cases es with
      | nil => cases hnext
      | cons e es =>
          simp only [Place.next, List.mem_cons, Prod.mk.injEq, List.not_mem_nil, or_false] at hnext
          rcases hnext with ⟨rfl, rfl⟩ | ⟨rfl, rfl⟩
          · exact fun name hname => (h name hname).next (by simp [Place.next])
          · exact fun name hname => (h name hname).next (by simp [Place.next])
  | stmt s => exact explained_parts hvisit hsettled hnext
  | stmts ss =>
      cases ss with
      | nil => cases hnext
      | cons s ss =>
          simp only [Place.next, List.mem_cons, Prod.mk.injEq, List.not_mem_nil, or_false] at hnext
          rcases hnext with ⟨-, rfl⟩ | ⟨-, rfl⟩ <;> trivial
  | function kind d =>
      cases List.mem_singleton.mp hnext
      trivial
  | methods ds =>
      cases ds with
      | nil => cases hnext
      | cons d ds =>
          simp only [Place.next, List.mem_cons, Prod.mk.injEq, List.not_mem_nil, or_false] at hnext
          rcases hnext with ⟨-, rfl⟩ | ⟨-, rfl⟩ <;> trivial

end Next

/-- In an accepted program, only inside of its own initializer is a local variable not ready. -/
theorem Visits.explained {program : List (Stmt Unit)}
    (hchecked : ∀ {ctx p}, Visits program ctx p → Place.Checked ctx p) {ctx : Context} {p : Place}
    (h : Visits program ctx p) : Explained (Visits program) ctx p := by
  induction h with
  | start => trivial
  | next hvisit hnext ih => exact ih.next hvisit (hchecked hvisit).settled hnext

end Lox.Resolution
