/-!
How the run of a source ends, for the user and for the shell.
-/

namespace Lox

inductive Status where
  | ok
  | staticError
  | runtimeError
  deriving DecidableEq, Repr

namespace Status

def name : Status → String
  | .ok => "ok"
  | .staticError => "static error"
  | .runtimeError => "runtime error"

def exitCode : Status → Nat
  | .ok => 0
  | .staticError => 65
  | .runtimeError => 70

def ofCode? : Int → Option Status
  | 0 => some .ok
  | 1 => some .staticError
  | 2 => some .runtimeError
  | _ => none

def nameOfCode (code : Int) : String :=
  match ofCode? code with
  | some status => status.name
  | none => "unknown"

def exitOfCode (code : Int) : Nat :=
  match ofCode? code with
  | some status => status.exitCode
  | none => 0

end Status

end Lox
