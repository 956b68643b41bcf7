import Mathlib.Data.List.Perm.Basic
import Mathlib.Data.List.Nodup
import Lox.Proofs.Resolution.WellFormed
import Lox.Tree.Uses

/-!
# The rules of a program

Where `return`, `this`, `super` and names may stand, said of the text alone: each piece of a program
that a rule is about, with the layers that it lies in. The walk that checks a program keeps the
innermost function, the innermost class and the names declared so far. It reports what breaks a rule
and nothing else, each piece as often as it does.
-/

namespace Lox

namespace Resolution

/-- What can lie around a piece of code. -/
inductive Layer where
  | block
  | function
  | method
  | initializer
  | class (derived : Bool)
  deriving DecidableEq, Repr

/-- What the rules are about. A scope comes with the names declared in it, in order. -/
inductive Piece where
  | return (keyword : Token) (hasValue : Bool)
  | use (u : Use Unit)
  | superclass (name base : Token)
  | scope (names : List Token)
  | initializer (name : Token) (value : Expr Unit)

def Layer.isFunction : Layer → Bool
  | .function | .method | .initializer => true
  | _ => false

/-- The innermost function of the layers, which start with the innermost one. -/
def functionOf : List Layer → FunctionKind
  | [] => .none
  | .function :: _ => .function
  | .method :: _ => .method
  | .initializer :: _ => .initializer
  | _ :: layers => functionOf layers

def classOf : List Layer → ClassKind
  | [] => .none
  | .class derived :: _ => if derived then .derived else .plain
  | _ :: layers => classOf layers

/-- The names that stand behind another one with the same text. -/
def repeated (seen : List Bytes) : List Token → List Token
  | [] => []
  | name :: names =>
      (if name.lexeme ∈ seen then [name] else []) ++ repeated (name.lexeme :: seen) names

def methodLayer (name : Token) : Layer :=
  if name.lexeme = initName then .initializer else .method

end Resolution

open Resolution

/-- The names that a statement declares in the scope around it. -/
def Stmt.declared {ρ : Type} : Stmt ρ → List Token
  | .class name _ _ => [name]
  | .function decl => [decl.name]
  | .var name _ => [name]
  | .ifThen _ thenBranch => thenBranch.declared
  | .ifElse _ thenBranch elseBranch => thenBranch.declared ++ elseBranch.declared
  | .while _ body => body.declared
  | _ => []
termination_by structural s => s

def Stmt.declaredAll {ρ : Type} (ss : List (Stmt ρ)) : List Token :=
  ss.flatMap Stmt.declared

def Expr.pieces (layers : List Layer) (e : Expr Unit) : List (List Layer × Piece) :=
  e.uses.map fun u => (layers, .use u)

def Expr.piecesOf (layers : List Layer) : Option (Expr Unit) → List (List Layer × Piece)
  | none => []
  | some e => e.pieces layers

mutual

def Stmt.pieces (layers : List Layer) : Stmt Unit → List (List Layer × Piece)
  | .block body =>
      (.block :: layers, .scope (Stmt.declaredAll body)) :: Stmt.piecesAll (.block :: layers) body
  | .class name superclass methods =>
      (superclass.toList.map fun base => (layers, .superclass name base.1)) ++
        FunctionDecl.piecesAll (.class superclass.isSome :: layers) methods
  | .expr e => e.pieces layers
  | .function decl => decl.pieces (.function :: layers)
  | .ifThen condition thenBranch => condition.pieces layers ++ thenBranch.pieces layers
  | .ifElse condition thenBranch elseBranch =>
      condition.pieces layers ++ thenBranch.pieces layers ++ elseBranch.pieces layers
  | .print e => e.pieces layers
  | .return keyword value =>
      (layers, .return keyword value.isSome) :: Expr.piecesOf layers value
  | .var name init =>
      (init.toList.map fun value => (layers, .initializer name value)) ++
        Expr.piecesOf layers init
  | .while condition body => condition.pieces layers ++ body.pieces layers

def Stmt.piecesAll (layers : List Layer) : List (Stmt Unit) → List (List Layer × Piece)
  | [] => []
  | s :: ss => s.pieces layers ++ Stmt.piecesAll layers ss

/-- A parameter list shares its scope with the body. -/
def FunctionDecl.pieces (layers : List Layer) : FunctionDecl Unit → List (List Layer × Piece)
  | ⟨_, params, body⟩ =>
      (layers, .scope (params ++ Stmt.declaredAll body)) :: Stmt.piecesAll layers body

def FunctionDecl.piecesAll (layers : List Layer) :
    List (FunctionDecl Unit) → List (List Layer × Piece)
  | [] => []
  | d :: ds => d.pieces (methodLayer d.name :: layers) ++ FunctionDecl.piecesAll layers ds

end

namespace Resolution

def pieces (program : List (Stmt Unit)) : List (List Layer × Piece) :=
  Stmt.piecesAll [] program

structure Rules (program : List (Stmt Unit)) : Prop where
  /-- Every `return` is inside some function or method. -/
  returns : ∀ layers keyword hasValue, (layers, .return keyword hasValue) ∈ pieces program →
    ∃ layer ∈ layers, layer.isFunction
  /-- No `return` with a value has an initializer as its innermost function. -/
  values : ∀ layers keyword, (layers, .return keyword true) ∈ pieces program →
    functionOf layers ≠ .initializer
  /-- Every `this` is inside some class. -/
  this : ∀ layers keyword, (layers, .use ⟨.this, keyword, ()⟩) ∈ pieces program →
    ∃ derived, .class derived ∈ layers
  /-- The innermost class around every `super` has a superclass. -/
  super : ∀ layers keyword, (layers, .use ⟨.super, keyword, ()⟩) ∈ pieces program →
    classOf layers = .derived
  /-- No class names itself as its superclass. -/
  superclasses : ∀ layers name base, (layers, .superclass name base) ∈ pieces program →
    base.lexeme ≠ name.lexeme
  /-- No local scope declares a name twice. -/
  scopes : ∀ layers names, (layers, .scope names) ∈ pieces program →
    (names.map Token.lexeme).Nodup
  /-- No initializer of a local variable reads the name of that variable. -/
  initializers : ∀ layers name value, (layers, .initializer name value) ∈ pieces program →
    layers ≠ [] → ∀ u ∈ value.uses, u.tag = .variable → u.token.lexeme ≠ name.lexeme

/-- The reads of the name of a variable in its own initializer. -/
def ownReads (name : Token) (value : Expr Unit) : List Token :=
  (value.uses.filter fun u => u.tag = .variable && u.token.lexeme = name.lexeme).map Use.token

/-- What breaks a rule at a piece. -/
def broken : List Layer × Piece → List StaticError
  | (layers, .return keyword hasValue) =>
      match functionOf layers with
      | .none => [⟨keyword, .returnOutsideFunction⟩]
      | .initializer => if hasValue then [⟨keyword, .returnFromInitializer⟩] else []
      | _ => []
  | (layers, .use u) =>
      match u.tag, classOf layers with
      | .this, .none => [⟨u.token, .thisOutsideClass⟩]
      | .super, .none => [⟨u.token, .superOutsideClass⟩]
      | .super, .plain => [⟨u.token, .superWithoutSuperclass⟩]
      | _, _ => []
  | (_, .superclass name base) =>
      if base.lexeme = name.lexeme then [⟨base, .inheritsFromItself⟩] else []
  | (_, .scope names) => (repeated [] names).map (⟨·, .redeclared⟩)
  | (layers, .initializer name value) =>
      if layers = [] then [] else (ownReads name value).map (⟨·, .readInOwnInitializer⟩)

def violations (program : List (Stmt Unit)) : List StaticError :=
  (pieces program).flatMap broken

/-! ### The rules hold where nothing is broken -/

theorem functionOf_eq_none_iff (layers : List Layer) :
    functionOf layers = .none ↔ ¬∃ layer ∈ layers, layer.isFunction := by
  induction layers with
  | nil => simp [functionOf]
  | cons layer layers ih => cases layer <;> simp [functionOf, Layer.isFunction, ih]

theorem classOf_eq_none_iff (layers : List Layer) :
    classOf layers = .none ↔ ¬∃ derived, .class derived ∈ layers := by
  induction layers with
  | nil => simp [classOf]
  | cons layer layers ih =>
      cases layer with
      | «class» derived => cases derived <;> simp [classOf]
      | _ => simp [classOf, ih]

theorem repeated_eq_nil_iff (seen : List Bytes) (names : List Token) :
    repeated seen names = [] ↔
      (∀ name ∈ names, name.lexeme ∉ seen) ∧ (names.map Token.lexeme).Nodup := by
  induction names generalizing seen with
  | nil => simp [repeated]
  | cons name names ih =>
      rw [repeated, List.append_eq_nil_iff, ih, List.map_cons, List.nodup_cons]
      constructor
      · rintro ⟨hname, hnames, hnodup⟩
        have hunseen : name.lexeme ∉ seen := by
          intro hmem
          simp [hmem] at hname
        refine ⟨List.forall_mem_cons.mpr ⟨hunseen, fun other hother hmem => ?_⟩, ?_, hnodup⟩
        · exact hnames other hother (List.mem_cons_of_mem _ hmem)
        · intro hmem
          obtain ⟨other, hother, heq⟩ := List.mem_map.mp hmem
          exact hnames other hother (heq ▸ List.mem_cons_self)
      · rintro ⟨hnames, hname, hnodup⟩
        rw [List.forall_mem_cons] at hnames
        refine ⟨if_neg hnames.1, fun other hother hmem => ?_, hnodup⟩
        rcases List.mem_cons.mp hmem with heq | hmem
        · exact hname (List.mem_map.mpr ⟨other, hother, heq⟩)
        · exact hnames.2 other hother hmem

theorem ownReads_eq_nil_iff (name : Token) (value : Expr Unit) :
    ownReads name value = [] ↔
      ∀ u ∈ value.uses, u.tag = .variable → u.token.lexeme ≠ name.lexeme := by
  simp [ownReads, List.filter_eq_nil_iff]

theorem broken_return_eq_nil_iff (layers : List Layer) (keyword : Token) (hasValue : Bool) :
    broken (layers, .return keyword hasValue) = [] ↔
      (∃ layer ∈ layers, layer.isFunction) ∧
        (hasValue = true → functionOf layers ≠ .initializer) := by
  have hnone := functionOf_eq_none_iff layers
  cases hkind : functionOf layers <;> simp_all [broken]

theorem broken_this_eq_nil_iff (layers : List Layer) (keyword : Token) :
    broken (layers, .use ⟨.this, keyword, ()⟩) = [] ↔ ∃ derived, .class derived ∈ layers := by
  have hclass : broken (layers, .use ⟨.this, keyword, ()⟩) = [] ↔ classOf layers ≠ .none := by
    cases hkind : classOf layers <;> simp [broken, hkind]
  rw [hclass, Ne, classOf_eq_none_iff, not_not]

theorem broken_super_eq_nil_iff (layers : List Layer) (keyword : Token) :
    broken (layers, .use ⟨.super, keyword, ()⟩) = [] ↔ classOf layers = .derived := by
  cases hkind : classOf layers <;> simp [broken, hkind]

theorem broken_scope_eq_nil_iff (layers : List Layer) (names : List Token) :
    broken (layers, .scope names) = [] ↔ (names.map Token.lexeme).Nodup := by
  simp [broken, repeated_eq_nil_iff]

theorem broken_initializer_eq_nil_iff (layers : List Layer) (name : Token) (value : Expr Unit) :
    broken (layers, .initializer name value) = [] ↔ (layers ≠ [] →
      ∀ u ∈ value.uses, u.tag = .variable → u.token.lexeme ≠ name.lexeme) := by
  rw [← ownReads_eq_nil_iff]
  by_cases hlayers : layers = [] <;> simp [broken, hlayers]

theorem violations_eq_nil_iff (program : List (Stmt Unit)) :
    violations program = [] ↔ Rules program := by
  rw [violations, List.flatMap_eq_nil_iff]
  constructor
  · intro h
    constructor
    · intro layers keyword hasValue hmem
      exact ((broken_return_eq_nil_iff layers keyword hasValue).mp (h _ hmem)).1
    · intro layers keyword hmem
      exact ((broken_return_eq_nil_iff layers keyword true).mp (h _ hmem)).2 rfl
    · intro layers keyword hmem
      exact (broken_this_eq_nil_iff layers keyword).mp (h _ hmem)
    · intro layers keyword hmem
      exact (broken_super_eq_nil_iff layers keyword).mp (h _ hmem)
    · intro layers name base hmem heq
      have hnone := h _ hmem
      simp [broken, heq] at hnone
    · intro layers names hmem
      exact (broken_scope_eq_nil_iff layers names).mp (h _ hmem)
    · intro layers name value hmem
      exact (broken_initializer_eq_nil_iff layers name value).mp (h _ hmem)
  · rintro h ⟨layers, piece⟩ hmem
    cases piece with
    | «return» keyword hasValue =>
        refine (broken_return_eq_nil_iff layers keyword hasValue).mpr
          ⟨h.returns layers keyword hasValue hmem, ?_⟩
        rintro rfl
        exact h.values layers keyword hmem
    | use u =>
        obtain ⟨tag, token, _⟩ := u
        cases tag with
        | this => exact (broken_this_eq_nil_iff layers token).mpr (h.this layers token hmem)
        | «super» => exact (broken_super_eq_nil_iff layers token).mpr (h.super layers token hmem)
        | «variable» => rfl
        | assign => rfl
    | superclass name base => exact if_neg (h.superclasses layers name base hmem)
    | scope names => exact (broken_scope_eq_nil_iff layers names).mpr (h.scopes layers names hmem)
    | initializer name value =>
        exact (broken_initializer_eq_nil_iff layers name value).mpr
          (h.initializers layers name value hmem)

end Resolution

end Lox
