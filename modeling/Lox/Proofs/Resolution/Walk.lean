import Lox.Resolution.Bind
import Lox.Resolution.Check
import Lox.Tree.Sites

/-!
# The walk that binds names

The places of a program with the contexts in which the walk visits them. A rule that holds of a
whole program is a rule about each place, in the context of its visit.
-/

namespace Lox.Resolution

/-- What the walk visits. -/
inductive Place where
  | expr (e : Expr Unit)
  | arguments (es : List (Expr Unit))
  | stmt (s : Stmt Unit)
  | stmts (ss : List (Stmt Unit))
  | function (kind : FunctionKind) (d : FunctionDecl Unit)
  | methods (ds : List (FunctionDecl Unit))

namespace Place

/-- The places that are visited from an expression are its operands, in the same context. -/
def operands : Expr Unit → List Place
  | .assign _ _ value => [.expr value]
  | .binary left _ right => [.expr left, .expr right]
  | .call callee _ es => [.expr callee, .arguments es]
  | .get object _ => [.expr object]
  | .group inner => [.expr inner]
  | .literal _ => []
  | .logical left _ right => [.expr left, .expr right]
  | .set object _ value => [.expr value, .expr object]
  | .super _ _ _ => []
  | .this _ _ => []
  | .unary _ operand => [.expr operand]
  | .read _ _ => []

/-- The superclass of a class is read like a variable, when the name of the class is declared. -/
def superclass (ctx : Context) : Option (Token × Unit) → List (Context × Place)
  | none => []
  | some (base, _) => [(ctx, .expr (.read base ()))]

def expr? (ctx : Context) : Option (Expr Unit) → List (Context × Place)
  | none => []
  | some e => [(ctx, .expr e)]

/-- The places that are visited from a statement. -/
def parts (ctx : Context) : Stmt Unit → List (Context × Place)
  | .block body => [(ctx.enter [], .stmts body)]
  | .class name base ds =>
      superclass (ctx.define name) base ++ [((ctx.define name).inClass base.isSome, .methods ds)]
  | .expr e => [(ctx, .expr e)]
  | .function decl => [(ctx.define decl.name, .function .function decl)]
  | .ifThen condition thenBranch => [(ctx, .expr condition), (ctx, .stmt thenBranch)]
  | .ifElse condition thenBranch elseBranch =>
      [(ctx, .expr condition), (ctx, .stmt thenBranch), (ctx.after thenBranch, .stmt elseBranch)]
  | .print e => [(ctx, .expr e)]
  | .return _ value => expr? ctx value
  | .var name init => expr? (ctx.declare name) init
  | .while condition body => [(ctx, .expr condition), (ctx, .stmt body)]

/-- The places that the walk visits directly from a place, with their contexts. -/
def next (ctx : Context) : Place → List (Context × Place)
  | .expr e => (operands e).map (ctx, ·)
  | .arguments [] => []
  | .arguments (e :: es) => [(ctx, .expr e), (ctx, .arguments es)]
  | .stmt s => parts ctx s
  | .stmts [] => []
  | .stmts (s :: ss) => [(ctx, .stmt s), (ctx.after s, .stmts ss)]
  | .function kind d => [(ctx.inFunction kind d.params, .stmts d.body)]
  | .methods [] => []
  | .methods (d :: ds) => [(ctx, .function (Context.methodKind d.name) d), (ctx, .methods ds)]

/-- The scopes around a place. Methods are listed in the scopes around `this`, which each gets when it
is bound to a receiver. -/
def around (ctx : Context) : Place → List Frame
  | .methods _ => ctx.scopes.tail
  | _ => ctx.scopes

/-- Those of the places that the walk visits directly from a place that are in the same scopes. -/
def within (ctx : Context) : Place → List (Context × Place)
  | .stmt (.block _) => []
  | .stmt (.class name none ds) => [((ctx.define name).inClass false, .methods ds)]
  | .stmt (.class name (some base) _) => superclass (ctx.define name) (some base)
  | .function _ _ => []
  | .methods [] => []
  | .methods (_ :: ds) => [(ctx, .methods ds)]
  | p => p.next ctx

theorem mem_next_of_within {ctx : Context} {p : Place} {c : Context × Place}
    (h : c ∈ p.within ctx) : c ∈ p.next ctx := by
  unfold within at h
  split at h
  case h_7 => exact h
  all_goals simp_all [next, parts, superclass]

/-- The rules that are broken at a place or behind it. -/
def faults (ctx : Context) : Place → List StaticError
  | .expr e => e.faults ctx
  | .arguments es => Expr.faultsAll ctx es
  | .stmt s => s.faults ctx
  | .stmts ss => Stmt.faultsAll ctx ss
  | .function kind d => d.faults ctx kind
  | .methods ds => FunctionDecl.faultsAll ctx ds

end Place

/-- The walk over a program visits the place in the context. -/
inductive Visits (program : List (Stmt Unit)) : Context → Place → Prop where
  | start : Visits program .top (.stmts program)
  | next {ctx ctx' : Context} {p p' : Place} (h : Visits program ctx p)
      (hnext : (ctx', p') ∈ p.next ctx) : Visits program ctx' p'

/-- What a statement declares does not depend on its annotations. -/
theorem after_mapSites {ρ τ : Type} (f : ρ → τ) (ctx : Context) (s : Stmt ρ) :
    ctx.after (s.mapSites f) = ctx.after s := by
  fun_induction Context.after ctx s with
  | case4 ctx decl => cases decl; rfl
  | case5 ctx condition thenBranch ih => exact ih
  | case6 ctx condition thenBranch elseBranch ih ih' =>
      rw [Stmt.mapSites, Context.after, ih]
      exact ih'
  | case10 ctx condition body ih => exact ih
  | _ => rfl

/-- Globals are in no scope of the text, so the context of a program stays what it is. -/
theorem after_top {ρ : Type} (s : Stmt ρ) : Context.top.after s = Context.top := by
  have hnone {ctx : Context} (h : ctx.scopes = []) : ctx.after s = ctx := by
    fun_induction Context.after ctx s <;> simp_all [Context.define, Context.mark]
  exact hnone rfl

/-! ### Places in the same scopes -/

/-- The same scopes, in the innermost of which more names may have been declared. -/
inductive DeclaresMore : List Frame → List Frame → Prop where
  | nil : DeclaresMore [] []
  | cons {frame frame' : Frame} {outer : List Frame} (h : frame <:+ frame') :
      DeclaresMore (frame :: outer) (frame' :: outer)

namespace DeclaresMore

theorem refl (frames : List Frame) : DeclaresMore frames frames := by
  cases frames with
  | nil => exact .nil
  | cons frame outer => exact .cons List.suffix_rfl

theorem trans {a b c : List Frame} (h : DeclaresMore a b) (h' : DeclaresMore b c) :
    DeclaresMore a c := by
  cases h with
  | nil => exact h'
  | cons hfirst =>
      cases h' with
      | cons hsecond => exact .cons (hfirst.trans hsecond)

theorem length_eq {frames frames' : List Frame} (h : DeclaresMore frames frames') :
    frames'.length = frames.length := by
  cases h <;> rfl

/-- Each of the scopes has the same ones around it as before. -/
theorem drop {frames frames' : List Frame} (h : DeclaresMore frames frames') {d : Nat}
    {frame : Frame} {outer : List Frame} (hdrop : frames.drop d = frame :: outer) :
    ∃ frame', frames'.drop d = frame' :: outer ∧ frame <:+ frame' := by
  cases h with
  | nil => simp at hdrop
  | cons hsuffix =>
      cases d with
      | zero =>
          cases hdrop
          exact ⟨_, rfl, hsuffix⟩
      | succ d => exact ⟨frame, hdrop, List.suffix_rfl⟩

end DeclaresMore

theorem declaresMore_mark (ctx : Context) (name : Bytes) (ready : Bool) :
    DeclaresMore ctx.scopes (ctx.mark name ready).scopes := by
  unfold Context.mark
  split
  case h_1 => exact .refl _
  case h_2 frame outer hscopes =>
    rw [hscopes]
    exact .cons (List.suffix_cons _ _)

theorem declaresMore_define (ctx : Context) (name : Token) :
    DeclaresMore ctx.scopes (ctx.define name).scopes :=
  declaresMore_mark ctx name.lexeme true

theorem declaresMore_after {ρ : Type} (ctx : Context) (s : Stmt ρ) :
    DeclaresMore ctx.scopes (ctx.after s).scopes := by
  fun_induction Context.after ctx s with
  | case2 | case4 | case9 => exact declaresMore_define _ _
  | case5 ctx condition thenBranch ih => exact ih
  | case6 ctx condition thenBranch elseBranch ih ih' => exact ih.trans ih'
  | case10 ctx condition body ih => exact ih
  | _ => exact .refl _

theorem length_define (ctx : Context) (name : Token) :
    (ctx.define name).scopes.length = ctx.scopes.length :=
  (declaresMore_define ctx name).length_eq

theorem length_after {ρ : Type} (ctx : Context) (s : Stmt ρ) :
    (ctx.after s).scopes.length = ctx.scopes.length :=
  (declaresMore_after ctx s).length_eq

namespace Place

theorem declaresMore_operands {ctx : Context} (e : Expr Unit) :
    ∀ p ∈ operands e, DeclaresMore ctx.scopes (p.around ctx) := by
  cases e <;> simp [operands, around, DeclaresMore.refl]

theorem declaresMore_expr? (ctx : Context) (e : Option (Expr Unit)) :
    ∀ c ∈ expr? ctx e, DeclaresMore ctx.scopes (c.2.around c.1) := by
  cases e <;> simp [expr?, around, DeclaresMore.refl]

theorem declaresMore_within (ctx : Context) (p : Place) :
    ∀ c ∈ p.within ctx, DeclaresMore (p.around ctx) (c.2.around c.1) := by
  cases p with
  | expr e =>
      intro c hc
      obtain ⟨q, hq, rfl⟩ := List.mem_map.mp hc
      exact declaresMore_operands e q hq
  | arguments es => cases es <;> simp [within, next, around, DeclaresMore.refl]
  | stmt s =>
      cases s with
      | «class» name base ds =>
          have hdefine := declaresMore_define ctx name
          cases base with
          | none => simpa [within, around, Context.inClass, Context.enter] using hdefine
          | some base => simpa [within, superclass, around] using hdefine
      | function decl =>
          simpa [within, next, parts, around] using declaresMore_define ctx decl.name
      | ifElse condition thenBranch elseBranch =>
          simpa [within, next, parts, around, DeclaresMore.refl] using
            declaresMore_after ctx thenBranch
      | «return» keyword value => exact declaresMore_expr? ctx value
      | var name init =>
          intro c hc
          exact (declaresMore_mark ctx name.lexeme false).trans
            (declaresMore_expr? (ctx.declare name) init c hc)
      | _ => simp [within, next, parts, around, DeclaresMore.refl]
  | stmts ss =>
      cases ss with
      | nil => simp [within, next]
      | cons s ss =>
          simpa [within, next, around, DeclaresMore.refl] using declaresMore_after ctx s
  | function kind d => simp [within]
  | methods ds => cases ds <;> simp [within, around, DeclaresMore.refl]

end Place

/-! ### No fault at a place, no fault behind it -/

theorem faults_superclass {ctx : Context} {name : Token} {base : Option (Token × Unit)}
    (h : superclassFaults ctx name base = []) :
    ∀ c ∈ Place.superclass ctx base, c.2.faults c.1 = [] := by
  cases base with
  | none => simp [Place.superclass]
  | some base =>
      simp only [superclassFaults, List.append_eq_nil_iff] at h
      simpa [Place.superclass, Place.faults, Expr.faults] using h.2

theorem faults_expr? {ctx : Context} {e : Option (Expr Unit)} (h : Expr.faultsOf ctx e = []) :
    ∀ c ∈ Place.expr? ctx e, c.2.faults c.1 = [] := by
  cases e with
  | none => simp [Place.expr?]
  | some e => simpa [Place.expr?, Place.faults, Expr.faultsOf] using h

theorem faults_operands {ctx : Context} {e : Expr Unit} (h : e.faults ctx = []) :
    ∀ p ∈ Place.operands e, p.faults ctx = [] := by
  cases e <;> simp_all [Place.operands, Place.faults, Expr.faults]

theorem faults_parts {ctx : Context} {s : Stmt Unit} (h : s.faults ctx = []) :
    ∀ c ∈ Place.parts ctx s, c.2.faults c.1 = [] := by
  cases s with
  | «class» name base ds =>
      simp only [Stmt.faults, List.append_eq_nil_iff] at h
      simp only [Place.parts, List.forall_mem_append, List.forall_mem_singleton]
      exact ⟨faults_superclass h.1.2, h.2⟩
  | function decl =>
      simp only [Stmt.faults, List.append_eq_nil_iff] at h
      simpa [Place.parts, Place.faults] using h.2
  | ifElse condition thenBranch elseBranch =>
      simpa [Place.parts, Place.faults, Stmt.faults, and_assoc] using h
  | «return» keyword value =>
      simp only [Stmt.faults, List.append_eq_nil_iff] at h
      exact faults_expr? h.2
  | var name init =>
      simp only [Stmt.faults, List.append_eq_nil_iff] at h
      exact faults_expr? h.2
  | _ => simpa [Place.parts, Place.faults, Stmt.faults] using h

theorem faults_next {ctx : Context} {p : Place} (h : p.faults ctx = []) :
    ∀ c ∈ p.next ctx, c.2.faults c.1 = [] := by
  cases p with
  | expr e =>
      simp only [Place.next, List.forall_mem_map]
      exact faults_operands h
  | stmt s => exact faults_parts h
  | function kind d =>
      obtain ⟨name, params, body⟩ := d
      simp only [Place.faults, FunctionDecl.faults, List.append_eq_nil_iff] at h
      simpa [Place.next, Place.faults] using h.2
  | arguments es => cases es <;> simp_all [Place.next, Place.faults, Expr.faultsAll]
  | stmts ss => cases ss <;> simp_all [Place.next, Place.faults, Stmt.faultsAll]
  | methods ds => cases ds <;> simp_all [Place.next, Place.faults, FunctionDecl.faultsAll]

end Lox.Resolution
