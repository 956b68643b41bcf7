import Lox.Eval.Outcome
import Lox.Number.Rounding

/-!
The steps of evaluation that evaluate nothing further: operators, variables, properties, and the result
of native functions.
-/

namespace Lox.Eval

def fail {α : Type} (token : Token) (cause : RuntimeError.Cause) (σ : State) : Outcome α :=
  .error ⟨token, cause⟩ σ

def unary (operator : Token) (v : Value) (σ : State) : Outcome Value :=
  match operator.kind with
  | .bang => .ok (.bool (!v.truthy)) σ
  | .minus =>
      match v with
      | .num x => .ok (.num x.neg) σ
      | _ => fail operator .operandNotNumber σ
  | _ => fail operator (.unexpectedOperator operator.lexeme) σ

/-- Operators on two numbers. -/
def arithmetic (operator : Token) (x y : Number) (σ : State) : Outcome Value :=
  match operator.kind with
  | .greater => .ok (.bool (y.lt x)) σ
  | .greaterEqual => .ok (.bool (y.le x)) σ
  | .less => .ok (.bool (x.lt y)) σ
  | .lessEqual => .ok (.bool (x.le y)) σ
  | .minus => .ok (.num (x.sub y)) σ
  | .slash => .ok (.num (x.div y)) σ
  | .star => .ok (.num (x.mul y)) σ
  | _ => fail operator (.unexpectedOperator operator.lexeme) σ

def add (operator : Token) (a b : Value) (σ : State) : Outcome Value :=
  match a, b with
  | .num x, .num y => .ok (.num (x.add y)) σ
  | .str s, .str t => .ok (.str (s ++ t)) σ
  | _, _ => fail operator .operandsNotAddable σ

def binary (operator : Token) (a b : Value) (σ : State) : Outcome Value :=
  match operator.kind with
  | .equalEqual => .ok (.bool (a.equal b)) σ
  | .bangEqual => .ok (.bool (!a.equal b)) σ
  | .plus => add operator a b σ
  | _ =>
      match a, b with
      | .num x, .num y => arithmetic operator x y σ
      | _, _ => fail operator .operandsNotNumbers σ

/-- Whether the left operand of a logical operator is already its value. -/
def decides (operator : Token) (left : Value) : Bool :=
  if operator.kind = .orWord then left.truthy else !left.truthy

/-- A name with a distance is read that many scopes out, any other among the globals. -/
def read (name : Token) (site : Site) (σ : State) : Outcome Value :=
  match site with
  | some distance =>
      match σ.scopes.getAt? σ.env distance name.lexeme with
      | some v => .ok v σ
      | none => .broken σ
  | none =>
      match σ.scopes.get? State.globals name.lexeme with
      | some v => .ok v σ
      | none => .error (.undefined name) σ

/-- Assigns among the globals to a name that is bound there. -/
def assignGlobal (name : Token) (v : Value) (σ : State) : Outcome Value :=
  match σ.scopes.assign? State.globals name.lexeme v with
  | some scopes => .ok v { σ with scopes }
  | none => .error (.undefined name) σ

/-- Assigns in the scope that is as many scopes out as the distance, or else among the globals. -/
def assign (name : Token) (site : Site) (v : Value) (σ : State) : Outcome Value :=
  match site with
  | some distance =>
      match σ.scopes.assignAt? σ.env distance name.lexeme v with
      | some scopes => .ok v { σ with scopes }
      | none => .broken σ
  | none => assignGlobal name v σ

/-- A field of an instance, or else a method bound to it. -/
def property (id : ObjectId) (name : Token) (σ : State) : Outcome Value :=
  match σ.objects[id]? with
  | none => .broken σ
  | some o =>
      match o.fields.lookup name.lexeme with
      | some v => .ok v σ
      | none =>
          match σ.method? o.classId name.lexeme with
          | some f =>
              let (v, σ) := σ.boundMethod f id
              .ok v σ
          | none => fail name (.undefinedProperty name.lexeme) σ

def get (v : Value) (name : Token) (σ : State) : Outcome Value :=
  match v with
  | .object id => property id name σ
  | _ => fail name .noProperties σ

/-- A method of the superclass, bound to the receiver of the method around it. The scope of the receiver
lies directly inside that of the superclass. -/
def super (site : Site) (method : Token) (σ : State) : Outcome Value :=
  let distance := site.getD 0
  match σ.scopes.getAt? σ.env distance superName, σ.scopes.getAt? σ.env (distance - 1) thisName with
  | some (.class superclass), some (.object receiver) =>
      match σ.method? superclass method.lexeme with
      | some f =>
          let (v, σ) := σ.boundMethod f receiver
          .ok v σ
      | none => fail method (.undefinedProperty method.lexeme) σ
  | _, _ => .broken σ

def nanosecondsPerSecond : Number :=
  .ofInt 1000000000

/-- The clock shows seconds. -/
def readClock (σ : State) : Outcome Value :=
  let (nanoseconds, σ) := σ.tick
  .ok (.num ((Number.ofInt nanoseconds).div nanosecondsPerSecond)) σ

/-- The number of arguments that a value takes, if it can be called. -/
def arity? (v : Value) (σ : State) : Option Nat :=
  match v with
  | .function id => σ.functions[id]?.map (·.decl.params.length)
  | .clock => some 0
  | .class id =>
      match σ.method? id initName with
      | some init => some init.decl.params.length
      | none => some 0
  | _ => none

/-- The methods of a class; of two with one name the last stays. -/
def methodTable (closure : ScopeId) (methods : List (FunctionDecl Site)) : Bindings Function :=
  methods.foldl (fun table decl =>
    Bindings.insert decl.name.lexeme ⟨decl, closure, decl.name.lexeme = initName⟩ table) []

/-- The scope in which the methods of a class are closed: a derived class has one for `super`. -/
def methodScope (superclass : Option ClassId) (σ : State) : ScopeId × State :=
  match superclass with
  | some base => σ.newScope σ.env [(superName, .class base)]
  | none => (σ.env, σ)

/-- Creates a class and gives its name, which is bound already, that value. -/
def finishClass (name : Token) (superclass : Option ClassId)
    (methods : List (FunctionDecl Site)) (σ : State) : Outcome Completion :=
  let (closure, σ) := methodScope superclass σ
  let (id, σ) := σ.newClass ⟨name.lexeme, superclass, methodTable closure methods⟩
  match σ.scopes.assign? σ.env name.lexeme (.class id) with
  | some scopes => .ok .normal { σ with scopes }
  | none => .error (.undefined name) σ

end Lox.Eval
