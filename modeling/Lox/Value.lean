import Lox.Token

/-!
Runtime values. Functions, classes and instances are known by their identity; what they are is in the
store.
-/

namespace Lox

abbrev FunctionId := Nat

abbrev ClassId := Nat

abbrev ObjectId := Nat

inductive Value where
  | nil
  | bool (b : Bool)
  | num (x : Number)
  | str (s : Bytes)
  | function (id : FunctionId)
  | clock
  | class (id : ClassId)
  | object (id : ObjectId)
  deriving DecidableEq, Repr

def Literal.value : Literal → Value
  | .nil => .nil
  | .bool b => .bool b
  | .num x => .num x
  | .str s => .str s

namespace Value

/-- Only `nil` and `false` count as false. -/
def truthy : Value → Bool
  | .nil => false
  | .bool b => b
  | _ => true

def equal : Value → Value → Bool
  | .num x, .num y => x.equal y
  | a, b => a == b

end Value

/-- Named things; a name is bound at most once. -/
abbrev Bindings (α : Type) := List (Bytes × α)

/-- Binds a name, or replaces what it is bound to. -/
def Bindings.insert {α : Type} (name : Bytes) (a : α) : Bindings α → Bindings α
  | [] => [(name, a)]
  | (other, b) :: rest =>
      if other = name then (name, a) :: rest else (other, b) :: Bindings.insert name a rest

end Lox
