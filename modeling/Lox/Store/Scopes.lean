import Lox.Value

/-!
Scopes form a forest: each has a parent, created before it, or is outermost. They are shared, so a
change in one is seen from every scope below that does not hide it.
-/

namespace Lox

abbrev ScopeId := Nat

structure Scope where
  parent : Option ScopeId
  bindings : Bindings Value

/-- All scopes by their identity. -/
structure Scopes where
  all : Array Scope

namespace Scopes

def empty : Scopes :=
  ⟨#[]⟩

/-- The identity of the scope created next. -/
def next (scopes : Scopes) : ScopeId :=
  scopes.all.size

def push (scopes : Scopes) (parent : Option ScopeId) (bindings : Bindings Value) : Scopes :=
  ⟨scopes.all.push ⟨parent, bindings⟩⟩

def parent? (scopes : Scopes) (id : ScopeId) : Option ScopeId :=
  match scopes.all[id]? with
  | some scope => scope.parent
  | none => none

/-- What a name is bound to in one scope, regardless of its ancestors. -/
def bound? (scopes : Scopes) (id : ScopeId) (name : Bytes) : Option Value :=
  match scopes.all[id]? with
  | some scope => scope.bindings.lookup name
  | none => none

/-- Binds a name in one scope, whether it was bound there or not. -/
def define (scopes : Scopes) (id : ScopeId) (name : Bytes) (value : Value) : Scopes :=
  ⟨scopes.all.modify id fun scope =>
    { scope with bindings := Bindings.insert name value scope.bindings }⟩

/-- The closest scope that binds a name. -/
def holder? (scopes : Scopes) (id : ScopeId) (name : Bytes) : Option ScopeId :=
  match scopes.bound? id name with
  | some _ => some id
  | none =>
      match scopes.parent? id with
      | some parent => if parent < id then scopes.holder? parent name else none
      | none => none
termination_by id

def get? (scopes : Scopes) (id : ScopeId) (name : Bytes) : Option Value :=
  match scopes.holder? id name with
  | some holder => scopes.bound? holder name
  | none => none

/-- Replaces the closest binding of a name, if there is one. -/
@[inline]
def assign? (scopes : Scopes) (id : ScopeId) (name : Bytes) (value : Value) : Option Scopes :=
  match scopes.holder? id name with
  | some holder => some (scopes.define holder name value)
  | none => none

/-- Where a walk over parents ends: in a scope or at the empty place above an outermost one. A walk that
would go on from there ends nowhere. -/
def climb (scopes : Scopes) : Nat → Option ScopeId → Option (Option ScopeId)
  | 0, place => some place
  | _ + 1, none => none
  | n + 1, some id => scopes.climb n (scopes.parent? id)

/-- The scope that many parents up. -/
def ancestor? (scopes : Scopes) (id : ScopeId) (distance : Nat) : Option ScopeId :=
  (scopes.climb distance (some id)).join

/-- What a name is bound to in the scope that many parents up: `nil` if that scope lacks it. -/
def getAt? (scopes : Scopes) (id : ScopeId) (distance : Nat) (name : Bytes) : Option Value :=
  match scopes.ancestor? id distance with
  | some scope => some ((scopes.bound? scope name).getD .nil)
  | none => none

/-- Binds a name in the scope that many parents up. -/
@[inline]
def assignAt? (scopes : Scopes) (id : ScopeId) (distance : Nat) (name : Bytes) (value : Value) :
    Option Scopes :=
  match scopes.ancestor? id distance with
  | some scope => some (scopes.define scope name value)
  | none => none

end Scopes

end Lox
