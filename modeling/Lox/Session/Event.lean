import Lox.Session.Status
import Lox.Text.Quoted

/-!
What a session logs: one event for each phase that a source goes through, and two of the shell.
-/

namespace Lox

inductive Event where
  | scanned (tokens : Nat)
  | parsed (statements diagnostics : Nat)
  | resolved (locals diagnostics : Nat)
  | executed
  | stopped (line : Int)
  | runningScript (path : Bytes)
  | lineDone (status : Status)

namespace Event

inductive Field where
  | text (s : Bytes)
  | number (n : Int)

def Field.bytes : Field → Bytes
  | .text s => s
  | .number n => Bytes.ofInt n

def message : Event → String
  | .scanned _ => "source scanned"
  | .parsed _ _ => "tokens parsed"
  | .resolved _ _ => "statements resolved"
  | .executed => "statements executed"
  | .stopped _ => "runtime error"
  | .runningScript _ => "running script"
  | .lineDone _ => "line done"

def phase (name : String) : String × Field :=
  ("phase", .text (Lox.bytes name))

/-- The details of an event, by name. -/
def fields : Event → List (String × Field)
  | .scanned tokens => [phase "scan", ("tokens", .number tokens)]
  | .parsed statements diagnostics =>
      [("diagnostics", .number diagnostics), phase "parse", ("statements", .number statements)]
  | .resolved locals diagnostics =>
      [("diagnostics", .number diagnostics), ("locals", .number locals), phase "resolve"]
  | .executed => [phase "interpret"]
  | .stopped line => [("line", .number line), phase "interpret"]
  | .runningScript path => [("script", .text path)]
  | .lineDone status => [("status", .text (Lox.bytes status.name))]

end Event

end Lox
