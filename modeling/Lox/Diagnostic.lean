import Lox.Token

/-!
Diagnostics: what went wrong, in which phase, and where.
-/

namespace Lox

namespace Diagnostic

inductive Kind where
  | syntactic
  | static
  | runtime
  | unknown
  deriving DecidableEq, Repr

def Kind.ofCode : Int → Kind
  | 0 => .syntactic
  | 1 => .static
  | 2 => .runtime
  | _ => .unknown

def Kind.name : Kind → String
  | .syntactic => "syntax"
  | .static => "static"
  | .runtime => "runtime"
  | .unknown => "unknown"

/-- What a diagnostic points at beside its line. -/
inductive Place where
  | line
  | atEnd
  | lexeme (text : Bytes)
  deriving DecidableEq, Repr

def Place.text : Place → Bytes
  | .line => []
  | .atEnd => bytes " at end"
  | .lexeme text => bytes " at '" ++ text ++ bytes "'"

def Place.ofToken (t : Token) : Place :=
  if t.kind = .eof then .atEnd else .lexeme t.lexeme

end Diagnostic

structure Diagnostic where
  kind : Diagnostic.Kind
  line : Int
  place : Diagnostic.Place
  message : Bytes
  deriving DecidableEq, Repr

namespace Diagnostic

def onLine (kind : Kind) (line : Int) (message : Bytes) : Diagnostic :=
  ⟨kind, line, .line, message⟩

def atToken (kind : Kind) (t : Token) (message : Bytes) : Diagnostic :=
  ⟨kind, t.line, .ofToken t, message⟩

def text (d : Diagnostic) : Bytes :=
  bytes "line[" ++ Bytes.ofInt d.line ++ bytes "] Error" ++ d.place.text ++ bytes ": " ++ d.message

def isRuntime (d : Diagnostic) : Bool :=
  d.kind == .runtime

/-- Whether some diagnostic forbids to run the program. -/
def hasErrors (ds : List Diagnostic) : Bool :=
  ds.any fun d => !d.isRuntime

def hadRuntimeError (ds : List Diagnostic) : Bool :=
  ds.any isRuntime

/-- One diagnostic a line. -/
def report (ds : List Diagnostic) : Bytes :=
  ds.flatMap fun d => Bytes.line d.text

end Diagnostic

end Lox
