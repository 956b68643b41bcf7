import Lox.Store.Scopes
import Lox.Tree

/-!
Everything that a running program creates or changes. Nothing is ever removed: an identity is the
position at which a thing was created.
-/

namespace Lox

/-- A declaration with the scope in which it was executed. -/
structure Function where
  decl : FunctionDecl Site
  closure : ScopeId
  isInitializer : Bool

structure Class where
  name : Bytes
  superclass : Option ClassId
  methods : Bindings Function

structure Object where
  classId : ClassId
  fields : Bindings Value

/-- The state of a running program. Printed lines and the clock readings to come are part of it; of the
readings the last one stays. -/
structure State where
  scopes : Scopes
  functions : Array Function
  classes : Array Class
  objects : Array Object
  env : ScopeId
  depth : Nat
  clock : List Int
  printed : List Bytes

namespace State

/-- The scope of the globals is the first one. -/
def globals : ScopeId := 0

def clockName : Bytes := bytes "clock"

/-- A state in which nothing has run yet. -/
def initial (clock : List Int) : State :=
  { scopes := Scopes.empty.push none [(clockName, .clock)]
    functions := #[]
    classes := #[]
    objects := #[]
    env := globals
    depth := 0
    clock := clock
    printed := [] }

def define (σ : State) (id : ScopeId) (name : Bytes) (value : Value) : State :=
  { σ with scopes := σ.scopes.define id name value }

/-- Creates a scope. -/
@[noinline]
def newScope (σ : State) (parent : ScopeId) (bindings : Bindings Value) : ScopeId × State :=
  (σ.scopes.next, { σ with scopes := σ.scopes.push (some parent) bindings })

/-- Creates a scope and goes on in it. -/
def enter (σ : State) (parent : ScopeId) (bindings : Bindings Value) : State :=
  let (scope, σ) := σ.newScope parent bindings
  { σ with env := scope }

@[noinline]
def newFunction (σ : State) (f : Function) : FunctionId × State :=
  (σ.functions.size, { σ with functions := σ.functions.push f })

@[noinline]
def newClass (σ : State) (c : Class) : ClassId × State :=
  (σ.classes.size, { σ with classes := σ.classes.push c })

@[noinline]
def newObject (σ : State) (o : Object) : ObjectId × State :=
  (σ.objects.size, { σ with objects := σ.objects.push o })

def setField (σ : State) (id : ObjectId) (name : Bytes) (value : Value) : State :=
  { σ with
    objects := σ.objects.modify id fun o =>
      { o with fields := Bindings.insert name value o.fields } }

def print (σ : State) (text : Bytes) : State :=
  { σ with printed := text :: σ.printed }

/-- The next clock reading in nanoseconds. -/
def tick (σ : State) : Int × State :=
  match σ.clock with
  | [] => (0, σ)
  | [t] => (t, σ)
  | t :: later => (t, { σ with clock := later })

/-- The method of that name in a class or the closest of its superclasses. -/
def method? (σ : State) (id : ClassId) (name : Bytes) : Option Function :=
  match σ.classes[id]? with
  | none => none
  | some c =>
      match c.methods.lookup name with
      | some f => some f
      | none =>
          match c.superclass with
          | some parent => if parent < id then σ.method? parent name else none
          | none => none
termination_by id

def className (σ : State) (id : ClassId) : Bytes :=
  match σ.classes[id]? with
  | some c => c.name
  | none => []

/-- The text that a value is printed as. -/
def text (σ : State) : Value → Bytes
  | .nil => bytes "nil"
  | .bool true => bytes "true"
  | .bool false => bytes "false"
  | .num x => x.write Number.printed
  | .str s => s
  | .function id =>
      match σ.functions[id]? with
      | some f => bytes "<fn " ++ f.decl.name.lexeme ++ bytes ">"
      | none => []
  | .clock => bytes "<native fn>"
  | .class id => σ.className id
  | .object id =>
      match σ.objects[id]? with
      | some o => σ.className o.classId ++ bytes " instance"
      | none => []

/-- A function whose closure knows the receiver as `this`. -/
def bindMethod (σ : State) (f : Function) (receiver : ObjectId) : Function × State :=
  let (closure, σ) := σ.newScope f.closure [(thisName, .object receiver)]
  ({ f with closure := closure }, σ)

/-- A new function value. -/
def functionValue (σ : State) (f : Function) : Value × State :=
  let (id, σ) := σ.newFunction f
  (.function id, σ)

/-- A method value that is bound to its receiver. -/
def boundMethod (σ : State) (f : Function) (receiver : ObjectId) : Value × State :=
  let (f, σ) := σ.bindMethod f receiver
  σ.functionValue f

end State

end Lox
