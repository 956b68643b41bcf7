import Lox.Proofs.Resolution.Exact
import Lox.Tree.Uses

/-!
# One walk with a stack of scopes and a table

The walk that binds names, with all that it keeps between two steps: the innermost function and
class, the stack of scopes, the table of the places found in a local scope, and the reports. Scopes are
pushed and popped, kinds are set and put back, and names are declared in place. It ends in the context
that the names declared on the way account for, and it finds what binding and checking the bare tree
find.
-/

namespace Lox

namespace Resolution

/-- Makes a name readable that the scope has declared. -/
def Frame.settle (name : Bytes) : Frame → Frame
  | [] => [(name, true)]
  | (other, ready) :: frame =>
      if other = name then (other, true) :: frame else (other, ready) :: settle name frame

namespace Context

def settle (ctx : Context) (name : Token) : Context :=
  match ctx.scopes with
  | [] => ctx
  | frame :: outer => { ctx with scopes := frame.settle name.lexeme :: outer }

def leave (ctx : Context) : Context :=
  { ctx with scopes := ctx.scopes.tail }

theorem settle_declare (ctx : Context) (name : Token) :
    (ctx.declare name).settle name = ctx.define name := by
  cases hscopes : ctx.scopes with
  | nil => simp [declare, define, mark, settle, hscopes]
  | cons frame outer => simp [declare, define, mark, settle, hscopes, Frame.settle]

@[simp]
theorem leave_enter (ctx : Context) (frame : Frame) : (ctx.enter frame).leave = ctx := rfl

end Context

/-- How many scopes lie between a use and the one that it is bound to. -/
def Context.siteOf {κ : Type} (ctx : Context) (u : Use κ) : Site :=
  if u.tag = .this then ctx.locateThis u.token else ctx.locate u.token.lexeme

/-- The walk between two steps. The places of the tree are told apart by their annotations. -/
structure Walker (κ : Type) where
  context : Context
  table : List (κ × Nat)
  faults : List StaticError

end Resolution

open Resolution

variable {κ : Type}

namespace Resolution.Walker

def start : Walker κ :=
  ⟨.top, [], []⟩

def report (w : Walker κ) (errors : List StaticError) : Walker κ :=
  { w with faults := w.faults ++ errors }

def enter (w : Walker κ) (frame : Frame) : Walker κ :=
  { w with context := w.context.enter frame }

def leave (w : Walker κ) : Walker κ :=
  { w with context := w.context.leave }

def declare (w : Walker κ) (name : Token) : Walker κ :=
  { w.report (redeclaration w.context name) with context := w.context.declare name }

def define (w : Walker κ) (name : Token) : Walker κ :=
  { w with context := w.context.settle name }

def inFunction (w : Walker κ) (kind : FunctionKind) : Walker κ :=
  { w with context := { w.context with function := kind } }

def inClass (w : Walker κ) (kind : ClassKind) : Walker κ :=
  { w with context := { w.context with classKind := kind } }

variable [DecidableEq κ]

/-- The entry of a place takes the place of an older one. -/
def put (table : List (κ × Nat)) (place : κ) (distance : Nat) : List (κ × Nat) :=
  (place, distance) :: table.filter (·.1 ≠ place)

/-- Looks for the name of a place from the innermost scope on. -/
def bind (w : Walker κ) (place : κ) (name : Token) : Walker κ :=
  match w.context.locate name.lexeme with
  | some distance => { w with table := put w.table place distance }
  | none => w

def read (w : Walker κ) (name : Token) (place : κ) : Walker κ :=
  (w.report (readFaults w.context name)).bind place name

end Resolution.Walker

section Walk

variable [DecidableEq κ]

mutual

def Expr.walk : Expr κ → Walker κ → Walker κ
  | .assign name place value, w => (value.walk w).bind place name
  | .binary left _ right, w => right.walk (left.walk w)
  | .call callee _ arguments, w => Expr.walkAll arguments (callee.walk w)
  | .get object _, w => object.walk w
  | .group inner, w => inner.walk w
  | .literal _, w => w
  | .logical left _ right, w => right.walk (left.walk w)
  | .set object _ value, w => object.walk (value.walk w)
  | .super keyword place _, w => (w.report (superFaults w.context keyword)).bind place keyword
  | .this keyword place, w =>
      if w.context.classKind = .none then w.report [⟨keyword, .thisOutsideClass⟩]
      else w.bind place keyword
  | .unary _ operand, w => operand.walk w
  | .read name place, w => w.read name place

def Expr.walkAll : List (Expr κ) → Walker κ → Walker κ
  | [], w => w
  | e :: es, w => Expr.walkAll es (e.walk w)

end

def Expr.walkOf : Option (Expr κ) → Walker κ → Walker κ
  | none, w => w
  | some e, w => e.walk w

/-- The superclass is read before the scope for `super` is entered around the methods. -/
def Resolution.Walker.superclass (name : Token) (w : Walker κ) : Option (Token × κ) → Walker κ
  | none => w
  | some (base, place) =>
      let checked :=
        w.report (if base.lexeme = name.lexeme then [⟨base, .inheritsFromItself⟩] else [])
      ((checked.inClass .derived).read base place).enter [(superName, true)]

mutual

def Stmt.walk : Stmt κ → Walker κ → Walker κ
  | .block body, w => (Stmt.walkAll body (w.enter [])).leave
  | .class name superclass methods, w =>
      let named := ((w.inClass .plain).declare name).define name
      let around := Walker.superclass name named superclass
      let behind := (FunctionDecl.walkAll methods (around.enter [(thisName, true)])).leave
      (if superclass.isSome then behind.leave else behind).inClass w.context.classKind
  | .expr e, w => e.walk w
  | .function decl, w => decl.walk .function ((w.declare decl.name).define decl.name)
  | .ifThen condition thenBranch, w => thenBranch.walk (condition.walk w)
  | .ifElse condition thenBranch elseBranch, w =>
      elseBranch.walk (thenBranch.walk (condition.walk w))
  | .print e, w => e.walk w
  | .return keyword value, w =>
      Expr.walkOf value (w.report (returnFaults w.context keyword value.isSome))
  | .var name init, w => (Expr.walkOf init (w.declare name)).define name
  | .while condition body, w => body.walk (condition.walk w)

def Stmt.walkAll : List (Stmt κ) → Walker κ → Walker κ
  | [], w => w
  | s :: ss, w => Stmt.walkAll ss (s.walk w)

def FunctionDecl.walk (kind : FunctionKind) : FunctionDecl κ → Walker κ → Walker κ
  | ⟨_, params, body⟩, w =>
      let inside := params.foldl (fun w name => (w.declare name).define name)
        ((w.inFunction kind).enter [])
      (Stmt.walkAll body inside).leave.inFunction w.context.function

def FunctionDecl.walkAll : List (FunctionDecl κ) → Walker κ → Walker κ
  | [], w => w
  | d :: ds, w => FunctionDecl.walkAll ds (d.walk (Context.methodKind d.name) w)

end

/-- The walk over a whole program. -/
def Resolution.Walker.over (program : List (Stmt κ)) : Walker κ :=
  Stmt.walkAll program .start

end Walk

/-! ### What the walk visits -/

mutual

/-- The uses in an expression in the order of the walk. -/
def Expr.order : Expr κ → List (Use κ)
  | .assign name place value => value.order ++ [⟨.assign, name, place⟩]
  | .binary left _ right => left.order ++ right.order
  | .call callee _ arguments => callee.order ++ Expr.orderAll arguments
  | .get object _ => object.order
  | .group inner => inner.order
  | .literal _ => []
  | .logical left _ right => left.order ++ right.order
  | .set object _ value => value.order ++ object.order
  | .super keyword place _ => [⟨.super, keyword, place⟩]
  | .this keyword place => [⟨.this, keyword, place⟩]
  | .unary _ operand => operand.order
  | .read name place => [⟨.variable, name, place⟩]

def Expr.orderAll : List (Expr κ) → List (Use κ)
  | [] => []
  | e :: es => e.order ++ Expr.orderAll es

end

def Expr.visits (ctx : Context) (e : Expr κ) : List (Context × Use κ) :=
  e.order.map (ctx, ·)

def Expr.visitsOf (ctx : Context) : Option (Expr κ) → List (Context × Use κ)
  | none => []
  | some e => e.visits ctx

mutual

/-- The uses in a statement in the order of the walk, each with the context that it is reached in. -/
def Stmt.visits (ctx : Context) : Stmt κ → List (Context × Use κ)
  | .block body => Stmt.visitsAll (ctx.enter []) body
  | .class name superclass methods =>
      (Use.ofSuperclass superclass).map (ctx.define name, ·) ++
        FunctionDecl.visitsAll ((ctx.define name).inClass superclass.isSome) methods
  | .expr e => e.visits ctx
  | .function decl => decl.visits (ctx.define decl.name) .function
  | .ifThen condition thenBranch => condition.visits ctx ++ thenBranch.visits ctx
  | .ifElse condition thenBranch elseBranch =>
      condition.visits ctx ++ thenBranch.visits ctx ++ elseBranch.visits (ctx.after thenBranch)
  | .print e => e.visits ctx
  | .return _ value => Expr.visitsOf ctx value
  | .var name init => Expr.visitsOf (ctx.declare name) init
  | .while condition body => condition.visits ctx ++ body.visits ctx

def Stmt.visitsAll (ctx : Context) : List (Stmt κ) → List (Context × Use κ)
  | [] => []
  | s :: ss => s.visits ctx ++ Stmt.visitsAll (ctx.after s) ss

def FunctionDecl.visits (ctx : Context) (kind : FunctionKind) :
    FunctionDecl κ → List (Context × Use κ)
  | ⟨_, params, body⟩ => Stmt.visitsAll (ctx.inFunction kind params) body

def FunctionDecl.visitsAll (ctx : Context) : List (FunctionDecl κ) → List (Context × Use κ)
  | [] => []
  | d :: ds => d.visits ctx (Context.methodKind d.name) ++ FunctionDecl.visitsAll ctx ds

end

section Visits

variable [DecidableEq κ]

namespace Resolution.Walker

def note (table : List (κ × Nat)) (visit : Context × Use κ) : List (κ × Nat) :=
  match visit.1.siteOf visit.2 with
  | some distance => put table visit.2.site distance
  | none => table

/-- The walk behind some visits and reports, in the given context. -/
def visited (w : Walker κ) (ctx : Context) (visits : List (Context × Use κ))
    (errors : List StaticError) : Walker κ :=
  ⟨ctx, visits.foldl note w.table, w.faults ++ errors⟩

variable (w : Walker κ)

@[simp]
theorem context_visited (ctx : Context) (visits : List (Context × Use κ))
    (errors : List StaticError) : (w.visited ctx visits errors).context = ctx := rfl

@[simp]
theorem visited_visited (ctx ctx' : Context) (visits visits' : List (Context × Use κ))
    (errors errors' : List StaticError) :
    (w.visited ctx visits errors).visited ctx' visits' errors' =
      w.visited ctx' (visits ++ visits') (errors ++ errors') := by
  simp [visited]

theorem report_eq (errors : List StaticError) :
    w.report errors = w.visited w.context [] errors := rfl

theorem visited_self : w = w.visited w.context [] [] := by
  simp [visited]

theorem enter_eq (frame : Frame) : w.enter frame = w.visited (w.context.enter frame) [] [] := by
  simp [visited, enter]

theorem leave_eq : w.leave = w.visited w.context.leave [] [] := by
  simp [visited, leave]

theorem inFunction_eq (kind : FunctionKind) :
    w.inFunction kind = w.visited { w.context with function := kind } [] [] := by
  simp [visited, inFunction]

theorem inClass_eq (kind : ClassKind) :
    w.inClass kind = w.visited { w.context with classKind := kind } [] [] := by
  simp [visited, inClass]

theorem declare_eq (name : Token) :
    w.declare name = w.visited (w.context.declare name) [] (redeclaration w.context name) := rfl

theorem define_eq (name : Token) :
    w.define name = w.visited (w.context.settle name) [] [] := by
  simp [visited, define]

/-- A name is declared and defined in one go, without a use between the two. -/
theorem define_declare (name : Token) :
    (w.declare name).define name =
      w.visited (w.context.define name) [] (redeclaration w.context name) := by
  rw [declare_eq, define_eq, visited_visited, context_visited, Context.settle_declare]
  simp

theorem bind_eq (ctx : Context) (u : Use κ) (h : w.context.locate u.token.lexeme = ctx.siteOf u) :
    w.bind u.site u.token = w.visited w.context [(ctx, u)] [] := by
  simp only [bind, visited, note, List.foldl_cons, List.foldl_nil, ← h]
  cases w.context.locate u.token.lexeme <;> simp

theorem params_eq (params : List Token) :
    params.foldl (fun w name => (w.declare name).define name) w =
      w.visited (params.foldl Context.define w.context) [] (paramFaults w.context params) := by
  induction params generalizing w with
  | nil => exact w.visited_self
  | cons name params ih =>
      rw [List.foldl_cons, ih, define_declare, visited_visited]
      rfl

end Resolution.Walker

end Visits

/-! ### The walk does what its visits say -/

/-- The tree as the parser yields it. -/
abbrev Expr.erase (e : Expr κ) : Expr Unit :=
  e.mapSites fun _ => ()

abbrev Expr.eraseAll (es : List (Expr κ)) : List (Expr Unit) :=
  Expr.mapSitesAll (fun _ => ()) es

abbrev Stmt.erase (s : Stmt κ) : Stmt Unit :=
  s.mapSites fun _ => ()

abbrev Stmt.eraseAll (ss : List (Stmt κ)) : List (Stmt Unit) :=
  Stmt.mapSitesAll (fun _ => ()) ss

abbrev FunctionDecl.erase (d : FunctionDecl κ) : FunctionDecl Unit :=
  d.mapSites fun _ => ()

abbrev FunctionDecl.eraseAll (ds : List (FunctionDecl κ)) : List (FunctionDecl Unit) :=
  FunctionDecl.mapSitesAll (fun _ => ()) ds

namespace Resolution

theorem exists_enter_foldl_define (ctx : Context) (frame : Frame) (names : List Token) :
    ∃ frame', names.foldl Context.define (ctx.enter frame) = ctx.enter frame' := by
  induction names generalizing frame with
  | nil => exact ⟨frame, rfl⟩
  | cons name names ih => exact ih ((name.lexeme, true) :: frame)

/-- Names that are declared inside a scope are gone with it. -/
theorem leave_after {ctx : Context} {frame : Frame} (ss : List (Stmt κ)) :
    (ss.foldl Context.after (ctx.enter frame)).leave = ctx := by
  induction ss generalizing frame with
  | nil => rfl
  | cons s ss ih =>
      obtain ⟨frame', hframe⟩ := exists_enter_foldl_define ctx frame s.declared
      rw [List.foldl_cons, after_eq_foldl, hframe]
      exact ih

theorem leave_after_inFunction {ctx : Context} {kind : FunctionKind} {params : List Token}
    (ss : List (Stmt κ)) :
    (ss.foldl Context.after (ctx.inFunction kind params)).leave = { ctx with function := kind } := by
  obtain ⟨frame, hframe⟩ := exists_enter_foldl_define { ctx with function := kind } [] params
  rw [Context.inFunction, hframe]
  exact leave_after ss

theorem leave_inClass (ctx : Context) (derived : Bool) :
    (ctx.inClass derived).leave =
      if derived then { ctx with classKind := .derived }.enter [(superName, true)]
      else { ctx with classKind := .plain } := by
  cases derived <;> rfl

theorem withKind_define (ctx : Context) (kind : ClassKind) (name : Token) :
    ({ ctx with classKind := kind } : Context).define name =
      { ctx.define name with classKind := kind } := by
  unfold Context.define Context.mark
  dsimp only
  split <;> rfl

end Resolution

theorem FunctionDecl.name_mapSites {τ : Type} (f : κ → τ) (d : FunctionDecl κ) :
    (d.mapSites f).name = d.name := by
  cases d
  rfl

section Effects

variable [DecidableEq κ]

/-- The walker in front of the methods of a class. -/
theorem Resolution.Walker.enter_superclass (name : Token) (superclass : Option (Token × κ))
    (w : Walker κ) (ctx : Context) (hctx : w.context = { ctx with classKind := .plain }) :
    (Walker.superclass name w superclass).enter [(thisName, true)] =
      w.visited (ctx.inClass superclass.isSome) ((Use.ofSuperclass superclass).map (ctx, ·))
        (superclassFaults ctx name (superclass.map fun base => (base.1, ()))) := by
  cases superclass with
  | none =>
      rw [Walker.enter_eq, Walker.superclass, hctx]
      rfl
  | some base =>
      obtain ⟨base, place⟩ := base
      have hbind := (w.report (if base.lexeme = name.lexeme then [⟨base, .inheritsFromItself⟩] else [])
        |>.inClass .derived |>.report (readFaults ctx base)).bind_eq ctx
        ⟨.variable, base, place⟩ (by rw [report_eq, inClass_eq, report_eq, hctx]; rfl)
      have hfaults : readFaults ({ w.context with classKind := .derived } : Context) base =
          readFaults ctx base := by
        rw [hctx]
        rfl
      rw [enter_eq, superclass, enter_eq, read]
      simp only [report_eq, inClass_eq, context_visited, visited_visited, hfaults] at hbind ⊢
      rw [hbind]
      simp [hctx, superclassFaults, Use.ofSuperclass, Context.inClass]

mutual

theorem Expr.walk_eq : (e : Expr κ) → (w : Walker κ) →
    e.walk w = w.visited w.context (e.visits w.context) (e.erase.faults w.context)
  | .assign name place value, w => by
      have hbind := (value.walk w).bind_eq w.context ⟨.assign, name, place⟩
        (by rw [value.walk_eq w]; rfl)
      rw [Expr.walk, hbind, value.walk_eq w]
      simp [Expr.visits, Expr.order, Expr.mapSites, Expr.faults]
  | .binary left operator right, w => by
      rw [Expr.walk, right.walk_eq, left.walk_eq]
      simp [Expr.visits, Expr.order, Expr.mapSites, Expr.faults]
  | .call callee paren arguments, w => by
      rw [Expr.walk, Expr.walkAll_eq, callee.walk_eq]
      simp [Expr.visits, Expr.order, Expr.mapSites, Expr.faults]
  | .get object name, w => object.walk_eq w
  | .group inner, w => inner.walk_eq w
  | .literal value, w => w.visited_self
  | .logical left operator right, w => by
      rw [Expr.walk, right.walk_eq, left.walk_eq]
      simp [Expr.visits, Expr.order, Expr.mapSites, Expr.faults]
  | .set object name value, w => by
      rw [Expr.walk, object.walk_eq, value.walk_eq]
      simp [Expr.visits, Expr.order, Expr.mapSites, Expr.faults]
  | .super keyword place method, w => by
      have hbind := (w.report (superFaults w.context keyword)).bind_eq w.context
        ⟨.super, keyword, place⟩ rfl
      rw [Expr.walk, hbind, Walker.report_eq]
      simp [Expr.visits, Expr.order, Expr.mapSites, Expr.faults]
  | .this keyword place, w => by
      by_cases hclass : w.context.classKind = .none
      · have hnone : w.context.siteOf (⟨.this, keyword, place⟩ : Use κ) = none := by
          simp [Context.siteOf, Context.locateThis, hclass]
        rw [Expr.walk, if_pos hclass]
        simp [Walker.report, Walker.visited, Walker.note, hnone, Expr.visits, Expr.order,
          Expr.mapSites, Expr.faults, thisFaults, hclass]
      · have hbind := w.bind_eq w.context ⟨.this, keyword, place⟩
          (by simp [Context.siteOf, Context.locateThis, hclass])
        rw [Expr.walk, if_neg hclass, hbind]
        simp [Expr.visits, Expr.order, Expr.mapSites, Expr.faults, thisFaults, hclass]
  | .unary operator operand, w => operand.walk_eq w
  | .read name place, w => by
      have hbind := (w.report (readFaults w.context name)).bind_eq w.context
        ⟨.variable, name, place⟩ rfl
      rw [Expr.walk, Walker.read, hbind, Walker.report_eq]
      simp [Expr.visits, Expr.order, Expr.mapSites, Expr.faults]

theorem Expr.walkAll_eq : (es : List (Expr κ)) → (w : Walker κ) →
    Expr.walkAll es w =
      w.visited w.context ((Expr.orderAll es).map (w.context, ·))
        (Expr.faultsAll w.context (Expr.eraseAll es))
  | [], w => w.visited_self
  | e :: es, w => by
      rw [Expr.walkAll, Expr.walkAll_eq es, e.walk_eq]
      simp [Expr.visits, Expr.orderAll, Expr.mapSitesAll, Expr.faultsAll]

end

theorem Expr.walkOf_eq (e : Option (Expr κ)) (w : Walker κ) :
    Expr.walkOf e w =
      w.visited w.context (Expr.visitsOf w.context e)
        (Expr.faultsOf w.context (e.map Expr.erase)) := by
  cases e with
  | none => exact w.visited_self
  | some e => exact e.walk_eq w

mutual

theorem Stmt.walk_eq : (s : Stmt κ) → (w : Walker κ) →
    s.walk w = w.visited (w.context.after s) (s.visits w.context) (s.erase.faults w.context)
  | .block body, w => by
      rw [Stmt.walk, Stmt.walkAll_eq, Walker.enter_eq, Walker.leave_eq]
      simp [leave_after, Stmt.visits, Stmt.mapSites, Stmt.faults, Context.after]
  | .class name superclass methods, w => by
      have hnamed : ((w.inClass .plain).declare name).define name =
          w.visited { w.context.define name with classKind := .plain } []
            (redeclaration w.context name) := by
        rw [Walker.define_declare, Walker.inClass_eq, Walker.visited_visited,
          Walker.context_visited, withKind_define]
        rfl
      have hmethods := Walker.enter_superclass name superclass
        (w.visited { w.context.define name with classKind := .plain } []
          (redeclaration w.context name)) (w.context.define name) rfl
      rw [Walker.visited_visited] at hmethods
      rw [Stmt.walk, hnamed, hmethods, FunctionDecl.walkAll_eq]
      have hkind : (w.context.define name).classKind = w.context.classKind :=
        classKind_mark w.context name.lexeme true
      cases superclass with
      | none =>
          simp [Walker.inClass_eq, Walker.leave_eq, leave_inClass, ← hkind, Stmt.visits,
            Stmt.mapSites, Stmt.faults, Context.after]
      | some base =>
          simp [Walker.inClass_eq, Walker.leave_eq, leave_inClass, ← hkind, Stmt.visits,
            Stmt.mapSites, Stmt.faults, Context.after]
  | .expr e, w => e.walk_eq w
  | .function decl, w => by
      rw [Stmt.walk, decl.walk_eq, Walker.define_declare]
      simp [Stmt.visits, Stmt.mapSites, Stmt.faults, Context.after, FunctionDecl.name_mapSites]
  | .ifThen condition thenBranch, w => by
      rw [Stmt.walk, thenBranch.walk_eq, condition.walk_eq]
      simp [Stmt.visits, Stmt.mapSites, Stmt.faults, Context.after]
  | .ifElse condition thenBranch elseBranch, w => by
      rw [Stmt.walk, elseBranch.walk_eq, thenBranch.walk_eq, condition.walk_eq]
      simp [Stmt.visits, Stmt.mapSites, Stmt.faults, Context.after, after_mapSites]
  | .print e, w => e.walk_eq w
  | .return keyword value, w => by
      rw [Stmt.walk, Expr.walkOf_eq, Walker.report_eq]
      simp [Stmt.visits, Stmt.mapSites, Stmt.faults, Context.after]
  | .var name init, w => by
      rw [Stmt.walk, Expr.walkOf_eq, Walker.declare_eq, Walker.define_eq]
      simp [Stmt.visits, Stmt.mapSites, Stmt.faults, Context.after, Context.settle_declare]
  | .while condition body, w => by
      rw [Stmt.walk, body.walk_eq, condition.walk_eq]
      simp [Stmt.visits, Stmt.mapSites, Stmt.faults, Context.after]

theorem Stmt.walkAll_eq : (ss : List (Stmt κ)) → (w : Walker κ) →
    Stmt.walkAll ss w =
      w.visited (ss.foldl Context.after w.context) (Stmt.visitsAll w.context ss)
        (Stmt.faultsAll w.context (Stmt.eraseAll ss))
  | [], w => w.visited_self
  | s :: ss, w => by
      rw [Stmt.walkAll, Stmt.walkAll_eq ss, s.walk_eq]
      simp [Stmt.visitsAll, Stmt.mapSitesAll, Stmt.faultsAll, after_mapSites]

theorem FunctionDecl.walk_eq (kind : FunctionKind) : (d : FunctionDecl κ) → (w : Walker κ) →
    d.walk kind w =
      w.visited w.context (d.visits w.context kind) (d.erase.faults w.context kind)
  | ⟨name, params, body⟩, w => by
      have hinside : params.foldl (fun w name => (w.declare name).define name)
          ((w.inFunction kind).enter []) =
          w.visited (w.context.inFunction kind params) []
            (paramFaults (w.context.inFunction kind []) params) := by
        rw [Walker.params_eq, Walker.enter_eq, Walker.inFunction_eq, Walker.visited_visited,
          Walker.visited_visited]
        rfl
      rw [FunctionDecl.walk, hinside, Stmt.walkAll_eq, Walker.leave_eq, Walker.inFunction_eq]
      simp [leave_after_inFunction, FunctionDecl.visits, FunctionDecl.mapSites, FunctionDecl.faults]

theorem FunctionDecl.walkAll_eq : (ds : List (FunctionDecl κ)) → (w : Walker κ) →
    FunctionDecl.walkAll ds w =
      w.visited w.context (FunctionDecl.visitsAll w.context ds)
        (FunctionDecl.faultsAll w.context (FunctionDecl.eraseAll ds))
  | [], w => w.visited_self
  | d :: ds, w => by
      rw [FunctionDecl.walkAll, FunctionDecl.walkAll_eq ds, d.walk_eq]
      simp [FunctionDecl.visitsAll, FunctionDecl.mapSitesAll, FunctionDecl.faultsAll,
        FunctionDecl.name_mapSites]

end

/-- Globals are in no scope, so the walk over a program ends in the context in which it started. -/
theorem Resolution.Walker.over_eq (program : List (Stmt κ)) :
    Walker.over program =
      Walker.start.visited .top (Stmt.visitsAll .top program)
        (staticErrors (Stmt.eraseAll program)) := by
  have htop (ss : List (Stmt κ)) : ss.foldl Context.after .top = .top := by
    induction ss with
    | nil => rfl
    | cons s ss ih => rw [List.foldl_cons, after_top, ih]
  rw [Walker.over, Stmt.walkAll_eq]
  exact congrArg (Walker.start.visited · _ _) (htop program)

end Effects

end Lox
