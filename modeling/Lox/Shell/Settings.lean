import Lox.Text.LowerCase
import Lox.Text.Quoted

/-!
Settings: how much to log, what the prompt looks like, where its history is kept and whether errors are
painted. Settings from a file replace earlier ones where they say something.
-/

namespace Lox

inductive LogLevel where
  | panic
  | fatal
  | error
  | warning
  | info
  | debug
  | trace
  deriving DecidableEq, Repr

namespace LogLevel

def name : LogLevel → String
  | .panic => "panic"
  | .fatal => "fatal"
  | .error => "error"
  | .warning => "warning"
  | .info => "info"
  | .debug => "debug"
  | .trace => "trace"

/-- Level names in small letters. -/
def names : List (Bytes × LogLevel) :=
  [(bytes "panic", .panic), (bytes "fatal", .fatal), (bytes "error", .error),
    (bytes "warn", .warning), (bytes "warning", .warning), (bytes "info", .info),
    (bytes "debug", .debug), (bytes "trace", .trace)]

/-- Reads a level name, whose case does not matter. -/
def ofName? (name : Bytes) : Option LogLevel :=
  names.lookup (lowerCase name)

/-- Whether events are logged at this level. -/
def showsEvents : LogLevel → Bool
  | .debug | .trace => true
  | _ => false

end LogLevel

/-- An empty text says nothing. -/
structure Settings where
  logLevel : Bytes
  prompt : Bytes
  historyFile : Bytes
  color : Option Bool
  deriving DecidableEq, Repr

namespace Settings

def silent : Settings :=
  ⟨[], [], [], none⟩

def orElse (text earlier : Bytes) : Bytes :=
  if text.isEmpty then earlier else text

/-- Settings that are replaced by what `other` says. -/
def merge (settings other : Settings) : Settings :=
  { logLevel := orElse other.logLevel settings.logLevel
    prompt := orElse other.prompt settings.prompt
    historyFile := orElse other.historyFile settings.historyFile
    color := other.color.or settings.color }

/-- Errors are painted unless that is switched off. -/
def paints (settings : Settings) : Bool :=
  settings.color.getD true

/-- The level in force. An unknown name counts as the default. -/
def level (settings : Settings) (verbose : Bool) : LogLevel :=
  if verbose then .debug else (LogLevel.ofName? settings.logLevel).getD .warning

end Settings

end Lox
